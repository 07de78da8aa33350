import Bpm.Manifest

/-!
# Platform filtering

Operating system, processor and C library declarations are checked one by one
against an explicit target, by npm's `checkList` rule.
-/

namespace Bpm

open Text

structure TargetPlatform where
  os : Str
  cpu : Str
  libc : Option Str
deriving DecidableEq

/-- Declarations, each list sorted and free of duplicates. -/
structure PlatformConstraints where
  os : List Str
  cpu : List Str
  libc : List Str
deriving DecidableEq

/-- Whether some path that reaches a package requires it. -/
inductive PackageReachability
  | optionalOnly | required
deriving DecidableEq

inductive PlatformDimension
  | os | cpu | libc
deriving DecidableEq

inductive PlatformDisposition
  | compatible
  | skipOptional (message : Str)
deriving DecidableEq

/-- The elements of a list as an ordered set. -/
def toSet (values : List Str) : List Str :=
  (values.foldl (fun (set : Map Unit) value => set.insert value ()) ∅).keys

def matchesList (value : Str) (declarations : List Str) : Bool :=
  if declarations = [] ∨ declarations = [lit "any"] then
    true
  else
    let positives := declarations.filter fun d => d.head? != some '!'
    -- A matching negation wins over every positive declaration.
    !declarations.contains ('!' :: value) && (positives.isEmpty || positives.contains value)

def mismatchedDimensions (constraints : PlatformConstraints) (target : TargetPlatform) :
    List PlatformDimension :=
  let libc := if target.os = lit "linux" then target.libc else none
  (if matchesList target.os constraints.os then [] else [.os]) ++
    (if matchesList target.cpu constraints.cpu then [] else [.cpu]) ++
    (if constraints.libc.isEmpty || libc.any (matchesList · constraints.libc) then []
      else [.libc])

def displayList (values : List Str) : Str :=
  '[' :: join [','] values ++ [']']

def displayTarget (target : TargetPlatform) : Str :=
  lit "os=" ++ target.os ++ lit ", cpu=" ++ target.cpu ++ lit ", libc=" ++
    target.libc.getD (lit "<unavailable>")

def displayConstraints (constraints : PlatformConstraints) : Str :=
  lit "os=" ++ displayList constraints.os ++ lit ", cpu=" ++ displayList constraints.cpu ++
    lit ", libc=" ++ displayList constraints.libc

def displayDimensions (dimensions : List PlatformDimension) : Str :=
  join [','] (dimensions.map fun dimension =>
    match dimension with
    | .os => lit "os"
    | .cpu => lit "cpu"
    | .libc => lit "libc")

/-- The text of the error for an unsupported package. -/
def unsupportedMessage (package : Str) (constraints : PlatformConstraints)
    (target : TargetPlatform) (mismatched : List PlatformDimension) : Str :=
  lit "package " ++ package ++ lit " does not support target " ++ displayTarget target ++
    lit "; declared constraints: " ++ displayConstraints constraints ++
    lit "; mismatched: " ++ displayDimensions mismatched

/-- Compatible, skipped with a message when only optional paths reach the
package, and an error (its message) when a required path does. -/
def checkPackagePlatform (package : Str) (constraints : PlatformConstraints)
    (target : TargetPlatform) (reachability : PackageReachability) :
    Except Str PlatformDisposition :=
  let mismatched := mismatchedDimensions constraints target
  if mismatched = [] then
    .ok .compatible
  else
    let message := unsupportedMessage package constraints target mismatched
    match reachability with
    | .required => .error message
    | .optionalOnly => .ok (.skipOptional message)

/-- The declarations of a version as constraint sets. -/
def VersionMetadata.constraints (metadata : VersionMetadata) : PlatformConstraints :=
  ⟨toSet metadata.os, toSet metadata.cpu, toSet metadata.libc⟩

end Bpm
