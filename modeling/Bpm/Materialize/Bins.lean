import Bpm.Lib.Folds
import Bpm.Lockfile.PackagePaths
import Bpm.Manifest
import Bpm.Resolver.Node

/-!
# Linking executables

After the packages are in place, one pass over them in lockfile order links what they
declare into `node_modules/.bin`.  A name that is taken stays as it is, so the first
package that declares a name gets it.  The links are relative, and lead from there into
the package.  The model is that of a Unix system, where executables are symbolic links.
-/

namespace Bpm

open Text FileTree

namespace Bins

/-! ## Relative targets -/

/-- The names in a path that has no other components than names and dots. -/
def cleanNames : List Component → Option (List Str)
  | [] => some []
  | .normal name :: rest => (cleanNames rest).map (name :: ·)
  | .curDir :: rest => cleanNames rest
  | .rootDir :: _ => none
  | .parentDir :: _ => none

def cleanComponents (path : Str) : Option (List Str) := cleanNames (components path)

/-- How many names two paths begin with in common. -/
def commonLength : List Str → List Str → Nat
  | a :: as, b :: bs => if a = b then commonLength as bs + 1 else 0
  | _, _ => 0

/-- The parts of the way between two directories. -/
def relativeParts (start dest : List Str) : List Str :=
  List.replicate (start.length - commonLength start dest) ['.', '.'] ++
    dest.drop (commonLength start dest)

def relativePath (start dest : Str) : Option Str :=
  match cleanComponents start, cleanComponents dest with
  | some start, some dest =>
      let parts := relativeParts start dest
      some (if parts.isEmpty then ['.'] else join ['/'] parts)
  | _, _ => none

def stripDotSlash (path : Str) : Str := (stripPrefix ['.', '/'] path).getD path

def binDir : Str := lit "node_modules/.bin"

/-- The target of a link in `node_modules/.bin`. -/
def relativeBinTarget (pkgPath relpath : Str) : Str :=
  let dest := joinPath pkgPath (stripDotSlash relpath)
  (relativePath binDir dest).getD dest

example : relativeBinTarget (lit "node_modules/a/node_modules/b") (lit "./cli.js") =
    lit "../a/node_modules/b/cli.js" := by
  decide

/-! ## The executables of a package -/

/-- What the manifest of an image declares; of a name in a scope the last part counts, and
what is not safe is dropped. -/
def imageDeclaredBins (bin : Option BinField) (packageName : Str) : Map Str :=
  let raw : Map Str :=
    match bin with
    | some (.one path) => (∅ : Map Str).insert packageName path
    | some (.map entries) => entries
    | none => ∅
  raw.toList.foldl (fun bins entry =>
    let name := (entry.1.splitOn '/').getLast?.getD entry.1
    if (validateBinName name).isOk && (validateBinTarget entry.2).isOk then
      bins.insert name entry.2
    else bins) ∅

section

variable {δ : Type} (manifests : δ → Option BinField)

/-- The lockfile's record, or else that of the image. -/
def declaredBins (work : PackageEntry × δ) : Map Str :=
  if work.1.bin.isEmpty then imageDeclaredBins (manifests work.2) work.1.name else work.1.bin

def declares (name : Str) (work : PackageEntry × δ) : Bool :=
  (declaredBins manifests work).contains name

end

/-! ## The pass -/

inductive MaterializeError
  | unsafePackagePath (path : Str) (detail : PathSafetyError)
  | unsafeWorkspaceTarget (path target : Str)
  | unsafeBinName (package name : Str) (detail : PathSafetyError)
  | unsafeBinTarget (package target : Str) (detail : PathSafetyError)
deriving DecidableEq

/-- What is found under a name in `node_modules/.bin`. -/
inductive BinEntry
  | symlink (target : Str)
  | other
deriving DecidableEq

structure MaterializeStats where
  packagesMaterialized : Nat
  binsLinked : Nat
  binsCollisions : Nat
  linksSkipped : Nat
deriving DecidableEq

structure BinPass where
  entries : Map BinEntry
  /-- The names that were linked or found taken in this pass. -/
  linked : Map Unit
  stats : MaterializeStats

def preflightBin (path : Str) (bin : Str × Str) : Except MaterializeError Unit :=
  match validateBinName bin.1, validateBinTarget bin.2 with
  | .error e, _ => .error (.unsafeBinName path bin.1 e)
  | .ok _, .error e => .error (.unsafeBinTarget path bin.2 e)
  | .ok _, .ok _ => .ok ()

def preflightPath (package : PackageEntry) : Except MaterializeError Unit :=
  if package.link then .ok ()
  else
    match validatePackagePath package.path with
    | .error e => .error (.unsafePackagePath package.path e)
    | .ok _ => .ok ()

def preflightTarget (package : PackageEntry) : Except MaterializeError Unit :=
  match package.workspaceTarget with
  | some target =>
      if isNormalizedRelative target then .ok ()
      else .error (.unsafeWorkspaceTarget package.path target)
  | none => .ok ()

def preflight (package : PackageEntry) : Except MaterializeError Unit := do
  preflightPath package
  preflightTarget package
  forM package.bin.toList (preflightBin package.path)

def linkBin (pkgPath : Str) (pass : BinPass) (bin : Str × Str) : BinPass :=
  let target := relativeBinTarget pkgPath bin.2
  let collided := { pass.stats with binsCollisions := pass.stats.binsCollisions + 1 }
  let counted := { pass.stats with binsLinked := pass.stats.binsLinked + 1 }
  if pass.linked.contains bin.1 then { pass with stats := collided }
  else
    match pass.entries[bin.1]? with
    | some (.symlink actual) =>
        if components actual = components target then
          { pass with linked := pass.linked.insert bin.1 (), stats := counted }
        else { pass with linked := pass.linked.insert bin.1 (), stats := collided }
    | some .other => { pass with linked := pass.linked.insert bin.1 (), stats := collided }
    | none =>
        { entries := pass.entries.insert bin.1 (.symlink target)
          linked := pass.linked.insert bin.1 ()
          stats := counted }

def linkBins (pkgPath : Str) (bins : Map Str) (pass : BinPass) : BinPass :=
  bins.toList.foldl (linkBin pkgPath) pass

/-- Links and what has nothing to fetch are passed over. -/
def isWork {δ : Type} (resolved : PackageEntry × δ) : Bool :=
  !resolved.1.link && !resolved.1.resolved.isEmpty

section

variable {δ : Type} (manifests : δ → Option BinField)

def linkPackage (pass : BinPass) (resolved : PackageEntry × δ) : BinPass :=
  if isWork resolved then
    linkBins resolved.1.path (declaredBins manifests resolved)
      { pass with stats :=
          { pass.stats with packagesMaterialized := pass.stats.packagesMaterialized + 1 } }
  else { pass with stats := { pass.stats with linksSkipped := pass.stats.linksSkipped + 1 } }

/-- The packages of a lockfile that have an image, in lockfile order. -/
def resolvedPackages (lock : Lockfile) (images : List (Option δ)) : List (PackageEntry × δ) :=
  (images.zip lock.packages).filterMap fun entry => entry.1.map (entry.2, ·)

/-- The whole pass over a `node_modules/.bin` that holds `entries`. -/
def linkBinsFor (entries : Map BinEntry) (resolved : List (PackageEntry × δ)) :
    Except MaterializeError BinPass := do
  forM resolved fun entry => preflight entry.1
  return resolved.foldl (linkPackage manifests) ⟨entries, ∅, ⟨0, 0, 0, 0⟩⟩

end

/-! ## Where the links lead -/

theorem take_commonLength (as bs : List Str) :
    as.take (commonLength as bs) = bs.take (commonLength as bs) := by
  induction as generalizing bs with
  | nil => simp [commonLength]
  | cons a as ih =>
      cases bs with
      | nil => simp [commonLength]
      | cons b bs =>
          rw [commonLength]
          split
          · rename_i h
            rw [List.take_succ_cons, List.take_succ_cons, h, ih]
          · rfl

theorem commonLength_le (as bs : List Str) : commonLength as bs ≤ as.length := by
  induction as generalizing bs with
  | nil => simp [commonLength]
  | cons a as ih =>
      cases bs with
      | nil => simp [commonLength]
      | cons b bs =>
          rw [commonLength, List.length_cons]
          split
          · have := ih bs
            omega
          · omega

/-- One step up, or into a directory. -/
def partComponent (part : Str) : Component :=
  if part = ['.', '.'] then .parentDir else .normal part

/-- Parts that are names or steps up are read back from their path. -/
theorem components_join {parts : List Str} (hne : parts ≠ [])
    (hparts : ∀ part ∈ parts, '/' ∉ part ∧ part ≠ [] ∧ part ≠ ['.']) :
    components (join ['/'] parts) = parts.map partComponent := by
  have hsplit : (join ['/'] parts).splitOn '/' = parts :=
    List.splitOn_intercalate '/' (fun part hpart => (hparts part hpart).1) hne
  have hsegment : ∀ part ∈ (join ['/'] parts).splitOn '/',
      FileTree.segment part = some (partComponent part) := by
    intro part hpart
    rw [hsplit] at hpart
    obtain ⟨_, hempty, hdot⟩ := hparts part hpart
    unfold FileTree.segment partComponent
    rw [if_neg (not_or.mpr ⟨hempty, hdot⟩)]
    split <;> rfl
  rw [components_of_segments hsegment, hsplit]

theorem walk_up (n : Nat) (loc : Loc) (rest : List Component) :
    walk (fun _ => some (.dir 0)) 0 loc (List.replicate n .parentDir ++ rest) =
      walk (fun _ => some (.dir 0)) 0 (loc.drop n) rest := by
  induction n generalizing loc with
  | zero => rfl
  | succ n ih =>
      rw [List.replicate_succ, List.cons_append]
      show walk (fun _ => some (.dir 0)) 0 loc.tail _ = _
      rw [ih, List.drop_tail]

/-- The way from one directory to another leads there. -/
theorem relativeParts_walk (start dest : List Str) (root : Loc)
    (hdest : ∀ part ∈ dest, SafeComponent part) :
    walk (fun _ => some (.dir 0)) 0 (start.reverse ++ root)
        ((relativeParts start dest).map partComponent) = .found (dest.reverse ++ root) := by
  have hnames : (dest.drop (commonLength start dest)).map partComponent =
      (dest.drop (commonLength start dest)).map .normal := by
    apply List.map_congr_left
    intro part hpart
    have hvalid := (hdest part (List.mem_of_mem_drop hpart)).1
    have hne : part ≠ ['.', '.'] := by
      rintro rfl
      cases hvalid
    exact if_neg hne
  have hlength : start.length - commonLength start dest ≤ start.reverse.length := by
    rw [List.length_reverse]
    omega
  have hups : (List.replicate (start.length - commonLength start dest) ['.', '.']).map
      partComponent = List.replicate (start.length - commonLength start dest) .parentDir := by
    rw [List.map_replicate]
    rfl
  rw [relativeParts, List.map_append, hups, walk_up, hnames,
    List.drop_append_of_le_length hlength, List.drop_reverse]
  rw [walk_dirs fun _ _ _ => ⟨0, rfl⟩]
  have hkeep : start.length - (start.length - commonLength start dest) =
      commonLength start dest := by
    have := commonLength_le start dest
    omega
  rw [hkeep, take_commonLength, ← List.append_assoc, ← List.reverse_append, List.take_append_drop]

theorem cleanNames_names (names : List Str) : cleanNames (names.map .normal) = some names := by
  induction names with
  | nil => rfl
  | cons name names ih => rw [List.map_cons, cleanNames, ih, Option.map_some]

/-- The parts of a safe path below another one. -/
theorem splitOn_joinPath {dir path : Str} (hdir : isNormalizedRelative dir = true)
    (hpath : isNormalizedRelative path = true) :
    (joinPath dir path).splitOn '/' = dir.splitOn '/' ++ path.splitOn '/' := by
  have hsafe := (isNormalizedRelative_iff.mp hdir).1
  have hpathSafe := (isNormalizedRelative_iff.mp hpath).1
  have hempty : ¬SafeComponent [] := fun h => nomatch h.1
  have hne : dir ≠ [] := by
    rintro rfl
    exact hempty (hsafe [] (by simp))
  have hrelative : ¬['/'].isPrefixOf path = true := by
    intro h
    obtain ⟨rest, rfl⟩ := List.isPrefixOf_iff_prefix.mp h
    apply hempty
    apply hpathSafe
    rw [List.singleton_append, ← List.nil_append ('/' :: rest), List.splitOn_append_cons_self]
    simp
  have hopen : ¬['/'].isSuffixOf dir = true := by
    intro h
    obtain ⟨front, rfl⟩ := List.isSuffixOf_iff_suffix.mp h
    apply hempty
    apply hsafe
    rw [List.splitOn_append_cons_self]
    simp
  unfold joinPath
  rw [if_neg (not_or.mpr ⟨hrelative, hne⟩), if_neg hopen, List.splitOn_append_cons_self]

/-- Where `node_modules/.bin` lies in a project. -/
def binLoc (root : Loc) : Loc := lit ".bin" :: nodeModules :: root

/-- The link of an executable leads into its package. -/
theorem relativeBinTarget_denotes {pkgPath relpath : Str}
    (hpkg : isNormalizedRelative pkgPath = true)
    (hrel : isNormalizedRelative (stripDotSlash relpath) = true) (root : Loc) :
    denotes (binLoc root) (relativeBinTarget pkgPath relpath) =
      .found (((stripDotSlash relpath).splitOn '/').reverse ++
        ((pkgPath.splitOn '/').reverse ++ root)) := by
  have hparts := splitOn_joinPath hpkg hrel
  have hsafe : ∀ part ∈ (joinPath pkgPath (stripDotSlash relpath)).splitOn '/',
      SafeComponent part := by
    intro part hpart
    rw [hparts] at hpart
    rcases List.mem_append.mp hpart with hin | hin
    · exact (isNormalizedRelative_iff.mp hpkg).1 part hin
    · exact (isNormalizedRelative_iff.mp hrel).1 part hin
  have hdest : cleanComponents (joinPath pkgPath (stripDotSlash relpath)) =
      some (pkgPath.splitOn '/' ++ (stripDotSlash relpath).splitOn '/') := by
    rw [cleanComponents, components_of_safe hsafe, cleanNames_names, hparts]
  have hstart : cleanComponents binDir = some [nodeModules, lit ".bin"] := by decide
  rw [hparts] at hsafe
  generalize pkgPath.splitOn '/' = pkg at *
  generalize (stripDotSlash relpath).splitOn '/' = rel at *
  have hwalk := relativeParts_walk [nodeModules, lit ".bin"] (pkg ++ rel) root hsafe
  rw [List.reverse_append, List.append_assoc] at hwalk
  rw [← hwalk]
  unfold relativeBinTarget relativePath denotes
  simp only [hdest, hstart, Option.getD_some]
  cases hempty : relativeParts [nodeModules, lit ".bin"] (pkg ++ rel) with
  | nil => rfl
  | cons first rest =>
      rw [if_neg (by simp), components_join (by simp)]
      · rfl
      · intro part hpart
        rw [← hempty, relativeParts] at hpart
        rcases List.mem_append.mp hpart with hin | hin
        · rw [List.eq_of_mem_replicate hin]
          decide
        · obtain ⟨hvalid, hslash, _⟩ := hsafe part (List.mem_of_mem_drop hin)
          unfold isValidComponent at hvalid
          rw [Bool.and_eq_true, Bool.and_eq_true, bne_iff_ne, Bool.not_eq_true',
            List.isEmpty_eq_false_iff] at hvalid
          exact ⟨hslash, hvalid.1.1, hvalid.1.2⟩

/-! ## What the pass leaves -/

/-- The names that were seen in the pass are taken. -/
def Covers (pass : BinPass) : Prop :=
  ∀ name, pass.linked.contains name = true → pass.entries.contains name = true

/-- The link for one of the executables of a package. -/
def binLink (pkgPath relpath : Str) : BinEntry := .symlink (relativeBinTarget pkgPath relpath)

/-- One executable is linked if its name is free. -/
theorem linkBin_spec {pass : BinPass} (h : Covers pass) (pkgPath : Str) (bin : Str × Str) :
    Covers (linkBin pkgPath pass bin) ∧
      ∀ name, (linkBin pkgPath pass bin).entries[name]? =
        (pass.entries[name]?).or
          (if bin.1 = name then some (binLink pkgPath bin.2) else none) := by
  -- a name that is taken stays as it is
  have htaken : pass.entries.contains bin.1 = true → ∀ name, pass.entries[name]? =
      (pass.entries[name]?).or (if bin.1 = name then some (binLink pkgPath bin.2) else none) := by
    intro hin name
    rw [Map.contains_eq_isSome] at hin
    split
    · rename_i heq
      subst heq
      obtain ⟨entry, hentry⟩ := Option.isSome_iff_exists.mp hin
      rw [hentry, Option.some_or]
    · rw [Option.or_none]
  have hmark : pass.entries.contains bin.1 = true → ∀ stats,
      Covers { pass with linked := pass.linked.insert bin.1 (), stats := stats } := by
    intro hin stats name hname
    rw [Map.contains_insert, Bool.or_eq_true, decide_eq_true_eq] at hname
    rcases hname with rfl | hold
    · exact hin
    · exact h name hold
  unfold linkBin
  dsimp only
  split
  · rename_i hlinked
    exact ⟨h, htaken (h bin.1 hlinked)⟩
  · cases hentry : pass.entries[bin.1]? with
    | some entry =>
        have hin : pass.entries.contains bin.1 = true := by
          rw [Map.contains_eq_isSome, hentry]
          rfl
        cases entry with
        | symlink actual =>
            dsimp only
            split
            · exact ⟨hmark hin _, htaken hin⟩
            · exact ⟨hmark hin _, htaken hin⟩
        | other => exact ⟨hmark hin _, htaken hin⟩
    | none =>
        constructor
        · intro name hname
          simp only [Map.contains_insert, Bool.or_eq_true, decide_eq_true_eq] at hname ⊢
          exact hname.imp_right (h name)
        · intro name
          show (pass.entries.insert bin.1 _)[name]? = _
          rw [Map.get_insert]
          split
          · rename_i heq
            subst heq
            rw [hentry, Option.none_or]
            rfl
          · rw [Option.or_none]

theorem foldl_linkBin_spec {pass : BinPass} (h : Covers pass) (pkgPath : Str)
    (bins : List (Str × Str)) :
    Covers (bins.foldl (linkBin pkgPath) pass) ∧
      ∀ name, (bins.foldl (linkBin pkgPath) pass).entries[name]? =
        (pass.entries[name]?).or
          ((bins.find? (·.1 = name)).map fun bin => binLink pkgPath bin.2) := by
  induction bins generalizing pass with
  | nil => exact ⟨h, fun name => by simp⟩
  | cons bin bins ih =>
      obtain ⟨hcovers, hentries⟩ := linkBin_spec h pkgPath bin
      obtain ⟨hlast, hrest⟩ := ih hcovers
      apply And.intro hlast
      intro name
      rw [List.foldl_cons, hrest, hentries, Option.or_assoc, List.find?_cons]
      congr 1
      by_cases hname : bin.1 = name
      · simp [hname]
      · simp [hname]

theorem find?_toList (m : Map Str) (name : Str) :
    (m.toList.find? (·.1 = name)).map Prod.snd = m[name]? := by
  cases hfound : m.toList.find? (·.1 = name) with
  | some entry =>
      have hname : entry.1 = name := by simpa using List.find?_some hfound
      have hentry := Map.mem_toList.mp (List.mem_of_find?_eq_some hfound)
      rw [hname] at hentry
      exact hentry.symm
  | none =>
      have hnone := List.find?_eq_none.mp hfound
      cases hm : m[name]? with
      | none => rfl
      | some value =>
          exact absurd (decide_eq_true rfl) (hnone (name, value) (Map.mem_toList.mpr hm))

/-- The executables of a package get the names that are free. -/
theorem linkBins_spec {pass : BinPass} (h : Covers pass) (pkgPath : Str) (bins : Map Str) :
    Covers (linkBins pkgPath bins pass) ∧
      ∀ name : Str, (linkBins pkgPath bins pass).entries[name]? =
        (pass.entries[name]?).or ((bins[name]?).map (binLink pkgPath)) := by
  obtain ⟨hcovers, hentries⟩ := foldl_linkBin_spec h pkgPath bins.toList
  apply And.intro hcovers
  intro name
  rw [linkBins, hentries, ← find?_toList, Option.map_map]
  rfl

section

variable {δ : Type} {manifests : δ → Option BinField}

/-- The link that a package adds for a name. -/
def declaredLink (manifests : δ → Option BinField) (name : Str) (work : PackageEntry × δ) :
    Option BinEntry :=
  ((declaredBins manifests work)[name]?).map (binLink work.1.path)

theorem linkPackage_spec {pass : BinPass} (h : Covers pass) (resolved : PackageEntry × δ) :
    Covers (linkPackage manifests pass resolved) ∧
      ∀ name : Str, (linkPackage manifests pass resolved).entries[name]? =
        (pass.entries[name]?).or
          (if isWork resolved then declaredLink manifests name resolved else none) := by
  unfold linkPackage
  split
  · have hsame : Covers { pass with stats :=
        { pass.stats with packagesMaterialized := pass.stats.packagesMaterialized + 1 } } := h
    exact linkBins_spec hsame resolved.1.path (declaredBins manifests resolved)
  · exact ⟨h, fun name => (Option.or_none).symm⟩

/-- The packages that are materialized, in the order of the pass. -/
def materialized (resolved : List (PackageEntry × δ)) : List (PackageEntry × δ) :=
  resolved.filter isWork

/-- After the pass a name that was free is the link of the first package that has one. -/
theorem foldl_linkPackage_spec {pass : BinPass} (h : Covers pass)
    (resolved : List (PackageEntry × δ)) (name : Str) :
    (resolved.foldl (linkPackage manifests) pass).entries[name]? =
      (pass.entries[name]?).or
        ((materialized resolved).findSome? (declaredLink manifests name)) := by
  induction resolved generalizing pass with
  | nil => simp [materialized]
  | cons first rest ih =>
      obtain ⟨hcovers, hentries⟩ := @linkPackage_spec _ manifests _ h first
      rw [List.foldl_cons, ih hcovers, hentries, Option.or_assoc]
      congr 1
      unfold materialized
      by_cases hwork : isWork first = true
      · rw [if_pos hwork, List.filter_cons_of_pos hwork, List.findSome?_cons]
        cases declaredLink manifests name first <;> rfl
      · rw [if_neg hwork, List.filter_cons_of_neg hwork, Option.none_or]

theorem declaredLink_isSome {name : Str} {work : PackageEntry × δ} :
    (declaredLink manifests name work).isSome = declares manifests name work := by
  rw [declares, Map.contains_eq_isSome, declaredLink, Option.isSome_map]

/-! ## Safe paths -/

theorem isNormalizedRelative_of_target {target : Str} (h : (validateBinTarget target).isOk = true) :
    isNormalizedRelative (stripDotSlash target) = true := by
  unfold validateBinTarget at h
  dsimp only at h
  split at h
  · cases h
  · split at h
    · cases h
    · rename_i hnormal
      rw [stripDotSlash]
      simpa using hnormal

/-- The targets lie in the package. -/
def SafeBins (bins : Map Str) : Prop :=
  ∀ name target : Str, bins[name]? = some target → (validateBinTarget target).isOk = true

/-- Unsafe targets in the manifest of an image are dropped. -/
theorem imageDeclaredBins_safe (bin : Option BinField) (packageName : Str) :
    SafeBins (imageDeclaredBins bin packageName) := by
  unfold imageDeclaredBins
  apply List.foldlRecOn (motive := SafeBins)
  · intro name target h
    simp at h
  · intro bins hbins entry _ name target h
    dsimp only at h
    split at h
    · rename_i hvalid
      rw [Map.get_insert] at h
      split at h
      · cases h
        exact (Bool.and_eq_true_iff.mp hvalid).2
      · exact hbins name target h
    · exact hbins name target h

/-- What passes the preflight has a safe path and safe executables. -/
theorem preflight_safe {package : PackageEntry} (h : preflight package = .ok ())
    (hlink : package.link = false) :
    isNormalizedRelative package.path = true ∧ SafeBins package.bin := by
  unfold preflight at h
  obtain ⟨_, hpath, h⟩ := Except.bind_eq_ok.mp h
  obtain ⟨_, _, hbins⟩ := Except.bind_eq_ok.mp h
  constructor
  · unfold preflightPath at hpath
    rw [hlink] at hpath
    have haccepts : accepts package.path = true := by
      unfold accepts
      cases hvalid : validatePackagePath package.path with
      | error e => simp [hvalid] at hpath
      | ok path => rfl
    exact (accepts_iff.mp haccepts).1
  · intro name target hbin
    have hone := Folds.forM_eq_ok.mp hbins (name, target) (Map.mem_toList.mpr hbin)
    unfold preflightBin at hone
    cases hname : validateBinName name with
    | error e => simp [hname] at hone
    | ok name' =>
        cases htarget : validateBinTarget target with
        | error e => simp [hname, htarget] at hone
        | ok target' => rfl

/-- The declared executables of a package lie in it. -/
theorem declaredBins_safe {work : PackageEntry × δ} (h : preflight work.1 = .ok ())
    (hlink : work.1.link = false) {name relpath : Str}
    (hbin : (declaredBins manifests work)[name]? = some relpath) :
    isNormalizedRelative (stripDotSlash relpath) = true := by
  apply isNormalizedRelative_of_target
  unfold declaredBins at hbin
  split at hbin
  · exact imageDeclaredBins_safe _ _ name relpath hbin
  · exact (preflight_safe h hlink).2 name relpath hbin

end

/-! ## Which package gets a name -/

section

variable {δ : Type} (manifests : δ → Option BinField)

/-- The link under a name leads to what a package declares under it. -/
def LeadsTo (entry : Option BinEntry) (work : PackageEntry × δ) (name : Str) : Prop :=
  ∃ relpath target, (declaredBins manifests work)[name]? = some relpath ∧
    entry = some (.symlink target) ∧ ∀ root, denotes (binLoc root) target =
      .found (((stripDotSlash relpath).splitOn '/').reverse ++
        ((work.1.path.splitOn '/').reverse ++ root))

/-- Who has a name after the pass over `node_modules/.bin`: what was there, or the first of
the packages that declare it. -/
structure FirstWins (entries after : Map BinEntry) (packages : List (PackageEntry × δ))
    (name : Str) : Prop where
  exists_iff : after.contains name = true ↔
    entries.contains name = true ∨ ∃ work ∈ packages, declares manifests name work = true
  kept : entries.contains name = true → after[name]? = entries[name]?
  first : entries.contains name = false → ∀ earlier work later,
    packages = earlier ++ work :: later → (∀ e ∈ earlier, declares manifests name e = false) →
      declares manifests name work = true → LeadsTo manifests after[name]? work name

/-- A pass that is not refused gives every free name to the first package, in lockfile
order, that declares it. -/
theorem linkBinsFor_firstWins (entries : Map BinEntry) (lock : Lockfile)
    (images : List (Option δ)) {after : BinPass}
    (h : linkBinsFor manifests entries (resolvedPackages lock images) = .ok after) (name : Str) :
    FirstWins manifests entries after.entries (materialized (resolvedPackages lock images))
      name := by
  generalize resolvedPackages lock images = resolved at *
  unfold linkBinsFor at h
  obtain ⟨_, hpreflight, hafter⟩ := Except.bind_eq_ok.mp h
  cases hafter
  have hcovers : Covers ⟨entries, ∅, ⟨0, 0, 0, 0⟩⟩ := by
    intro name hname
    simp at hname
  have hspec := @foldl_linkPackage_spec _ manifests _ hcovers resolved name
  dsimp only at hspec
  have hsome : ((materialized resolved).findSome? (declaredLink manifests name)).isSome = true ↔
      ∃ work ∈ materialized resolved, declares manifests name work = true := by
    rw [List.findSome?_isSome_iff]
    simp only [declaredLink_isSome]
  constructor
  · rw [Map.contains_eq_isSome, hspec, Option.isSome_or, Bool.or_eq_true, hsome,
      ← Map.contains_eq_isSome]
  · intro hin
    rw [Map.contains_eq_isSome] at hin
    obtain ⟨entry, hentry⟩ := Option.isSome_iff_exists.mp hin
    rw [hspec, hentry, Option.some_or]
  · intro hfree earlier work later hsplit hearlier hdeclares
    have hmem : work ∈ materialized resolved := by
      rw [hsplit]
      exact List.mem_append_right _ List.mem_cons_self
    obtain ⟨hresolved, hwork⟩ := List.mem_filter.mp hmem
    have hlink : work.1.link = false := by
      unfold isWork at hwork
      rw [Bool.and_eq_true, Bool.not_eq_true'] at hwork
      exact hwork.1
    have hsafe := Folds.forM_eq_ok.mp hpreflight work hresolved
    obtain ⟨relpath, hrelpath⟩ : ∃ relpath, (declaredBins manifests work)[name]? = some relpath := by
      rw [declares, Map.contains_eq_isSome] at hdeclares
      exact Option.isSome_iff_exists.mp hdeclares
    refine ⟨relpath, relativeBinTarget work.1.path relpath, hrelpath, ?_, ?_⟩
    · rw [hspec, Map.get_eq_none_iff.mpr hfree, Option.none_or, List.findSome?_eq_some_iff]
      refine ⟨earlier, work, later, hsplit, ?_, ?_⟩
      · rw [declaredLink, hrelpath]
        rfl
      · intro e he
        rw [← Option.not_isSome_iff_eq_none, declaredLink_isSome, hearlier e he]
        exact Bool.false_ne_true
    · exact relativeBinTarget_denotes (preflight_safe hsafe hlink).1
        (declaredBins_safe hsafe hlink hrelpath)

end

namespace Example

def package (path name : Str) (bin : Map Str) : PackageEntry :=
  { path := path, name := name, version := lit "1.0.0", resolved := lit "https://registry/x.tgz"
    workspaceTarget := none, integrity := none, link := false, dev := false, optional := false
    os := [], cpu := [], bin := bin, dependencies := ∅ }

def tool : Map Str := (∅ : Map Str).insert (lit "tool") (lit "cli.js")

/-- One version of `b` below `a`, and another one at the root. -/
def lock : Lockfile :=
  { Lockfile.new (lit "bpm") with
    packages :=
      [package (lit "node_modules/a") (lit "a") ∅,
        package (lit "node_modules/a/node_modules/b") (lit "b") tool,
        package (lit "node_modules/b") (lit "b") tool] }

def images : List (Option Nat) := [some 0, some 1, some 2]

def manifests (_ : Nat) : Option BinField := none

def resolved : List (PackageEntry × Nat) := resolvedPackages lock images

/-- The entries after the pass over an empty directory. -/
def after : Map BinEntry := (resolved.foldl (linkPackage manifests) ⟨∅, ∅, ⟨0, 0, 0, 0⟩⟩).entries

theorem linked : ∃ pass, linkBinsFor manifests ∅ resolved = .ok pass ∧ pass.entries = after := by
  have hpreflight : (forM resolved fun entry => preflight entry.1) = .ok () := by decide
  refine ⟨_, ?_, rfl⟩
  rw [linkBinsFor, hpreflight]
  rfl

end Example

/-- The pass over the three packages, from an empty directory. -/
theorem linkBinsFor_firstWins_nested :
    ∃ pass : BinPass, FirstWins Example.manifests ∅ pass.entries (materialized Example.resolved)
      (lit "tool") := by
  obtain ⟨pass, hpass, _⟩ := Example.linked
  exact ⟨pass, linkBinsFor_firstWins Example.manifests ∅ Example.lock Example.images hpass
    (lit "tool")⟩

/-- The packages that lie directly under the root `node_modules`. -/
def AtRoot (package : PackageEntry) : Prop := parentPath package.path = []

instance (package : PackageEntry) : Decidable (AtRoot package) :=
  inferInstanceAs (Decidable (_ = _))

/-- A package at the root declares the name, and the link leads to the nested one. -/
theorem linkBinsFor_nested :
    ∃ pass, linkBinsFor Example.manifests ∅ (resolvedPackages Example.lock Example.images) =
        .ok pass ∧
      (∃ work ∈ materialized Example.resolved, AtRoot work.1 ∧
        declares Example.manifests (lit "tool") work = true) ∧
      ∀ work ∈ materialized Example.resolved, AtRoot work.1 →
        ∀ relpath, (declaredBins Example.manifests work)[lit "tool"]? = some relpath →
          pass.entries[lit "tool"]? ≠ some (.symlink (relativeBinTarget work.1.path relpath)) := by
  obtain ⟨pass, hpass, hentries⟩ := Example.linked
  refine ⟨pass, hpass, by decide, ?_⟩
  have hlinks : ∀ work ∈ materialized Example.resolved, AtRoot work.1 →
      ((declaredBins Example.manifests work)[lit "tool"]?).map (binLink work.1.path) ≠
        Example.after[lit "tool"]? := by
    decide
  intro work hwork hroot relpath hrelpath hlink
  apply hlinks work hwork hroot
  rw [hrelpath, ← hentries, hlink]
  rfl

end Bins
end Bpm
