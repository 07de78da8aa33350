import Bpm.Lib.Bytes
import Bpm.Manifest
import Bpm.Lockfile.Model

/-!
# Non-registry dependency sources

`DependencySource.parse` recognises file, tarball, Git and patch specifications.
What the file system, the network and Git answer to them is a parameter, `Host`.
-/

namespace Bpm

open Text

inductive DependencySource
  | file (path : Str)
  | tarball (url : Str)
  | git (url : Str) (reference : Option Str)
  | patch (inner patch : Str)
deriving DecidableEq

/-- What a resolved source contributes to a placement. -/
structure SourceResolution where
  metadata : VersionMetadata
  resolved : Str
  integrity : Option Str
  source : LockSource
  link : Bool
  workspaceTarget : Option Str
  sourceDir : Option Str
deriving DecidableEq

/-- The answers of the file system, the network, Git and the archive readers:
resolving a file, tarball or Git source from a base directory, reading texts and
artifacts, applying a patch and storing its result. -/
structure Host where
  resolveSource : DependencySource → Str → Except Str SourceResolution
  readToString : Str → Except Str Str
  readSourceBytes : Str → Except Str Bytes
  applyPatch : Bytes → Str → Except Str Bytes
  writePatchedTarball : Str → Bytes → Except Str Str
  sourceFromTarballBytes : Str → Bytes → LockSource → Except Str SourceResolution

/-- Prefixes that mark a Git specification in any letter case. -/
def gitPrefixes : List Str :=
  [lit "git+", lit "git://", lit "ssh://", lit "git@", lit "github:", lit "gitlab:",
    lit "bitbucket:"]

def hostedGitPrefixes : List Str :=
  [lit "https://github.com/", lit "https://gitlab.com/", lit "https://bitbucket.org/"]

/-- `owner/repo`, or two path parts below one of the known hosts. -/
def looksLikeHostedGit (spec : Str) : Bool :=
  match hostedGitPrefixes.findSome? (stripPrefix · spec) with
  | some rest => (List.splitOn '/' rest).length == 2
  | none =>
      match List.splitOn '/' spec with
      | [owner, repo] =>
          !owner.isEmpty && !repo.isEmpty && !owner.contains ':' && !repo.contains ':'
      | _ => false

def splitGitReference (spec : Str) : Str × Option Str :=
  let stripped := (stripPrefix (lit "git+") spec).getD spec
  match splitOnce ['#'] stripped with
  | some (url, reference) => (url, some reference)
  | none => (stripped, none)

/-- The source kinds other than `patch:`. -/
def parsePlainSource (spec : Str) : Option DependencySource :=
  let lower := asciiLower spec
  match (stripPrefix (lit "file:") spec).or (stripPrefix (lit "link:") spec) with
  | some path => some (.file path)
  | none =>
      if (lit "./").isPrefixOf spec || (lit "../").isPrefixOf spec || ['/'].isPrefixOf spec then
        some (.file spec)
      else if ((lit "http://").isPrefixOf lower || (lit "https://").isPrefixOf lower) &&
          ((lit ".tgz").isSuffixOf lower || Text.contains (lit ".tgz?") lower) then
        some (.tarball spec)
      else if gitPrefixes.any (·.isPrefixOf lower) || looksLikeHostedGit spec then
        let (url, reference) := splitGitReference spec
        some (.git url reference)
      else
        none

def DependencySource.parse (spec : Str) : Option DependencySource :=
  match stripPrefix (lit "patch:") spec with
  -- A `patch:` text without `#` is no source at all.
  | some payload =>
      (rsplitOnce ['#'] payload).map fun parts => .patch parts.1 parts.2
  | none => parsePlainSource spec

/-- Resolve a source outside of resolver context, where a patch cannot be. -/
def DependencySource.resolve (host : Host) (source : DependencySource) (baseDir : Str) :
    Except Str SourceResolution :=
  match source with
  | .patch _ _ => .error (lit "patch sources require resolver context")
  | source => host.resolveSource source baseDir

/-- The archive of `owner/repo` at a reference. -/
def hostedTarball (base rest suffix reference : Str) : Option Str :=
  (splitOnce ['/'] rest).map fun (owner, repo) =>
    base ++ '/' :: owner ++ '/' :: trimEndMatches (lit ".git") repo ++ '/' :: suffix ++
      '/' :: reference

/-- The archive that a known host serves for a reference. -/
def hostedGitTarballUrl (spec : Str) (reference : Option Str) : Option Str :=
  let reference := reference.getD (lit "HEAD")
  let codeload := lit "https://codeload.github.com"
  match [lit "github:", lit "github.com/", lit "https://github.com/"].findSome?
      (stripPrefix · spec) with
  | some rest => hostedTarball codeload rest (lit "tar.gz") reference
  | none =>
      match [lit "gitlab:", lit "gitlab.com/", lit "https://gitlab.com/"].findSome?
          (stripPrefix · spec) with
      | some rest =>
          (splitOnce ['/'] rest).map fun (owner, repo) =>
            lit "https://gitlab.com/" ++ owner ++ '/' :: repo ++ lit "/-/archive/" ++ reference ++
              '/' :: trimEndMatches (lit ".git") repo ++ '-' :: reference ++ lit ".tar.gz"
      | none =>
          match [lit "bitbucket:", lit "bitbucket.org/", lit "https://bitbucket.org/"].findSome?
              (stripPrefix · spec) with
          | some rest =>
              (splitOnce ['/'] rest).map fun (owner, repo) =>
                lit "https://bitbucket.org/" ++ owner ++ '/' :: repo ++ lit "/get/" ++ reference ++
                  lit ".tar.gz"
          | none =>
              if looksLikeHostedGit spec then
                hostedTarball codeload spec (lit "tar.gz") reference
              else none

/-- Join a path to a directory, as the standard library does. -/
def joinPath (dir path : Str) : Str :=
  if ['/'].isPrefixOf path ∨ dir = [] then path
  else if ['/'].isSuffixOf dir then dir ++ path
  else dir ++ '/' :: path

end Bpm
