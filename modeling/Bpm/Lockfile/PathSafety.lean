import Bpm.Lockfile.Model

/-!
# Path safety

Lexical checks of package paths, executable names and executable targets.
-/

namespace Bpm

open Text

/-- Why a path, a name or a target is refused. -/
inductive PathSafetyError
  | invalidPackagePath (path reason : Str)
  | invalidBinName (name reason : Str)
  | invalidBinTarget (target reason : Str)
deriving DecidableEq

/-- Device names that no file may have, whatever its extension. -/
def windowsDeviceNames : List Str :=
  [lit "con", lit "prn", lit "aux", lit "nul", lit "com1", lit "com2", lit "com3", lit "com4",
    lit "com5", lit "com6", lit "com7", lit "com8", lit "com9", lit "lpt1", lit "lpt2",
    lit "lpt3", lit "lpt4", lit "lpt5", lit "lpt6", lit "lpt7", lit "lpt8", lit "lpt9"]

def isValidComponent (part : Str) : Bool :=
  !part.isEmpty && part != ['.'] && part != ['.', '.']

/-- Whether the second byte of a path is a colon; a character beyond ASCII takes
more than one byte. -/
def hasDrivePrefix : Str → Bool
  | c :: ':' :: _ => c.val < 128
  | _ => false

def isNormalizedRelative (path : Str) : Bool :=
  if path.isEmpty || path.head? == some '/' || path.head? == some '\\' then false
  else if hasDrivePrefix path then false
  else if path.contains '\\' then false
  else (path.splitOn '/').all isValidComponent

/-- Two neighbouring segments, `node_modules` and a name. -/
def hasModulesSegment : List Str → Bool
  | first :: second :: rest =>
      (first == lit "node_modules" && isValidComponent second) ||
        hasModulesSegment (second :: rest)
  | _ => false

def validatePackagePath (path : Str) : Except PathSafetyError Str :=
  if path.isEmpty then
    .error (.invalidPackagePath path (lit "package path cannot be empty"))
  else if !isNormalizedRelative path then
    .error (.invalidPackagePath path (lit "package path must be a normalized relative path without root, backslash, or traversal components"))
  else if !hasModulesSegment (path.splitOn '/') then
    .error (.invalidPackagePath path (lit "package path must contain a node_modules/<name> segment"))
  else .ok path

def isControl (c : Char) : Bool :=
  c.val < 32 || (127 ≤ c.val && c.val < 160)

def validateBinName (name : Str) : Except PathSafetyError Str :=
  let trimmed := name.rdropWhile fun c => c == '.' || c == ' '
  if name.isEmpty then .error (.invalidBinName name (lit "bin name cannot be empty"))
  else if name.contains '/' || name.contains '\\' then
    .error (.invalidBinName name (lit "bin name must not contain path separators"))
  else if name == ['.'] || name == ['.', '.'] then
    .error (.invalidBinName name (lit "bin name must not be '.' or '..'"))
  else if name.contains ':' then
    .error (.invalidBinName name (lit "bin name must not contain colon"))
  else if name.any isControl then
    .error (.invalidBinName name (lit "bin name must not contain control characters"))
  else if trimmed.isEmpty then
    .error (.invalidBinName name (lit "bin name is empty after trimming trailing dot/space"))
  else if windowsDeviceNames.contains (asciiLower trimmed) then
    .error (.invalidBinName name
      (lit "bin name is a reserved Windows device name: " ++ trimmed))
  else .ok trimmed

def validateBinTarget (target : Str) : Except PathSafetyError Str :=
  let normalized := (stripPrefix ['.', '/'] target).getD target
  if normalized.isEmpty then
    .error (.invalidBinTarget target (lit "bin target is empty after normalization"))
  else if !isNormalizedRelative normalized then
    .error (.invalidBinTarget target (lit "bin target must be a normalized relative path without root, backslash, or traversal components"))
  else .ok normalized

/-- The check that a version 2 lockfile makes of its paths. -/
def legalRelativePath (path : Str) : Bool :=
  !path.isEmpty && path.head? != some '/' && path.head? != some '\\' && !path.contains '\\' &&
    !(path.splitOn '/').any (fun part => part.isEmpty || part == ['.'] || part == ['.', '.']) &&
    !hasDrivePrefix path

/-- The two readers of paths agree. -/
theorem legalRelativePath_eq (path : Str) :
    legalRelativePath path = isNormalizedRelative path := by
  have hparts : (!(path.splitOn '/').any
      fun part => part.isEmpty || part == ['.'] || part == ['.', '.']) =
      (path.splitOn '/').all isValidComponent := by
    rw [List.not_any_eq_all_not]
    congr 1
    funext part
    simp [isValidComponent, bne, Bool.not_or, Bool.and_assoc]
  unfold legalRelativePath isNormalizedRelative
  rw [hparts]
  cases path.isEmpty <;> cases hasDrivePrefix path <;> cases path.contains '\\' <;>
    cases hslash : (path.head? == some '/') <;> cases hback : (path.head? == some '\\') <;>
    simp [bne, hslash, hback]

/-- A safe package path is a legal one. -/
theorem legal_of_validatePackagePath {path path' : Str}
    (h : validatePackagePath path = .ok path') : legalRelativePath path = true := by
  rw [legalRelativePath_eq]
  unfold validatePackagePath at h
  split at h
  · cases h
  · split at h
    · cases h
    · rename_i hnormal
      simpa using hnormal

end Bpm
