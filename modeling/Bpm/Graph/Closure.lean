import Bpm.Lib.Walk
import Bpm.Graph.Id

/-!
# Closure digests

The digest of a package's resolved dependency closure is a memoised depth-first
hash over the targets that the lockfile records.  A dependency cycle ends in a
marker for the package it returns to.
-/

namespace Bpm

open Bytes

/-- What a digest says of a package besides its path. -/
structure Identity where
  version : Str
  resolved : Str
  integrity : Str
deriving DecidableEq

namespace PackageEntry

def identity (entry : PackageEntry) : Identity :=
  ⟨entry.version, entry.resolved, entry.integrity.getD []⟩

end PackageEntry

namespace PackageResolution

/-- The distinct targets of all dependency kinds, in order. -/
def targets (r : PackageResolution) : List Str :=
  ((Map.valuesOf r.dependencies ++ Map.valuesOf r.optionalDependencies ++
    Map.valuesOf r.peerDependencies).foldl (fun children d => children.insert d.target ())
      (∅ : Map Unit)).toList.map Prod.fst

end PackageResolution

namespace Closure

/-- Packages by path; the last entry for a path counts. -/
def packageIndex (packages : List PackageEntry) : Map PackageEntry :=
  packages.foldl (fun index entry => index.insert entry.path entry) ∅

/-- The labelled graph that the walk reads. -/
def diagram (packages : Map PackageEntry) (resolution : Map PackageResolution) :
    Walk.Diagram (Option Identity) where
  label path := packages[path]?.map PackageEntry.identity
  children path :=
    match resolution[path]? with
    | some r => r.targets
    | none => []

def writeIdentity (identity : Option Identity) : Bytes :=
  match identity with
  | some i =>
      tag "version\x00" ++ utf8 i.version ++ tag "resolved\x00" ++ utf8 i.resolved ++
        tag "integrity\x00" ++ utf8 i.integrity
  | none => []

def writeChild (digest : ImageKey) : Bytes := tag "child\x00" ++ digest.toList

/-- The bytes hashed for a package. -/
def nodeInput (path : Str) (identity : Option Identity) (children : List ImageKey) : Bytes :=
  tag "bpm-package-closure-v1\x00" ++ tag "path\x00" ++ utf8 path ++ writeIdentity identity ++
    children.flatMap writeChild

/-- The bytes hashed for a cycle back to `target`. -/
def backEdgeInput (target : Str) : Bytes :=
  tag "bpm-package-closure-cycle\x00" ++ utf8 target

def hashing (blake3 : Bytes → ImageKey) : Walk.Fold (Option Identity) ImageKey where
  node path identity children := blake3 (nodeInput path identity children)
  backEdge target := blake3 (backEdgeInput target)

/-- `stack` holds the packages between the start and `path`; `fuel` bounds its height. -/
def closureDigest (blake3 : Bytes → ImageKey) (packages : Map PackageEntry)
    (resolution : Map PackageResolution) (fuel : Nat) (stack : Map Unit) (path : Str)
    (memo : Map ImageKey) : Option (ImageKey × Map ImageKey) :=
  Walk.visit (diagram packages resolution) (hashing blake3) fuel stack path memo

/-- No call is nested deeper than one level above the number of records. -/
def depth (lock : Lockfile) : Nat := lock.resolution.packages.toList.length + 1

def packageClosureDigest (blake3 : Bytes → ImageKey) (lock : Lockfile) (packagePath : Str) :
    Option ImageKey :=
  (closureDigest blake3 (packageIndex lock.packages) lock.resolution.packages (depth lock) ∅
    packagePath ∅).map Prod.fst

/-- The labelled graph of a lockfile. -/
def graph (lock : Lockfile) : Walk.Diagram (Option Identity) :=
  diagram (packageIndex lock.packages) lock.resolution.packages

/-- The term that the digest of a package evaluates. -/
def unfolding (lock : Lockfile) (packagePath : Str) : Option (Walk.Term (Option Identity)) :=
  (Walk.visit (graph lock) Walk.Term.free (depth lock) ∅ packagePath ∅).map Prod.fst

section Decoding

/-- Texts that may be hashed. -/
def NulFree (s : Str) : Prop := '\x00' ∉ s

structure Identity.NulFree (i : Identity) : Prop where
  version : Closure.NulFree i.version
  resolved : Closure.NulFree i.resolved
  integrity : Closure.NulFree i.integrity

end Decoding

section Injectivity

open Walk

/-- The bytes hashed at the root of a term. -/
def input (blake3 : Bytes → ImageKey) : Term (Option Identity) → Bytes
  | .node path identity children =>
      nodeInput path identity (Term.evalAll (hashing blake3) children)
  | .backEdge target => backEdgeInput target

/-- All byte strings hashed to evaluate a term. -/
def inputs (blake3 : Bytes → ImageKey) (t : Term (Option Identity)) : Set Bytes :=
  {bytes | ∃ s, Term.Sub s t ∧ bytes = input blake3 s}

/-- The texts of a term contain no null. -/
structure TermNulFree (t : Term (Option Identity)) : Prop where
  root : ∀ {s}, Term.Sub s t → NulFree s.root
  identity : ∀ {path i children}, Term.Sub (.node path i children) t →
    ∀ j ∈ i, Identity.NulFree j

theorem TermNulFree.child {path : Str} {i : Option Identity}
    {children : List (Term (Option Identity))} {c : Term (Option Identity)}
    (h : TermNulFree (.node path i children)) (hc : c ∈ children) : TermNulFree c where
  root hs := h.root (.child hs hc)
  identity hs := h.identity (.child hs hc)

/-- All byte strings hashed for the digest of a package. -/
def hashed (blake3 : Bytes → ImageKey) (lock : Lockfile) (packagePath : Str) : Set Bytes :=
  {bytes | ∃ t, unfolding lock packagePath = some t ∧ bytes ∈ inputs blake3 t}

end Injectivity

/-- A package without dependencies. -/
def leaf (path : Str) (integrity : Option Str) : PackageEntry :=
  { path := path, name := path, version := Text.lit "1.0.0", resolved := [], integrity := integrity
    workspaceTarget := none, link := false, dev := false, optional := false, os := [], cpu := []
    bin := ∅, dependencies := ∅ }

end Closure
end Bpm
