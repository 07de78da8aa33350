import Bpm.Archive.Budget
import Bpm.Resolver.Sources

/-!
# The manifest of an archive

The resolver reads the manifest of a packed source from the first entry whose path ends
in `package.json`.  An extraction leaves at the image root what the last file entry
brought there.  The two readers of an archive see one manifest when these two entries
hold the same text.
-/

namespace Bpm
namespace Archive

open Text FileTree FileSystem

/-- An entry with the bytes that its stream yields, and what is said where it fails. -/
structure Member where
  entry : TarEntry
  body : Bytes
  failure : Str
  length : body.length = entry.content

abbrev Members := List (Except Str Member)

def itemsOf (members : Members) : Items := members.map (Except.map Member.entry)

def bodyOf : Except Str Member → Bytes
  | .ok member => member.body
  | .error _ => []

/-- What files hold. -/
abbrev Contents := Loc → Option Bytes

/-- An opened file is empty, and then it gets all of a stream. -/
def Contents.apply (body : Bytes) (effect : Effect) (contents : Contents) : Contents :=
  match effect with
  | .create loc | .truncate loc => Function.update contents loc (some [])
  | .write loc _ => Function.update contents loc (some body)
  | .mkdir _ | .chmod _ _ | .symlink _ _ => contents

/-- The effects of a step, the latest first. -/
def newEffects (w w' : FileSystem.World) : List Effect :=
  w'.effects.take (w'.effects.length - w.effects.length)

section Extract

variable (sys : System) (root : Loc) (limits : ExtractionLimits)

/-- The extraction of an entry, with what it leaves in the files. -/
def extractMember (detected : Option Str) (state : Progress × Contents)
    (member : Except Str Member) : Extraction (Progress × Contents) := fun w =>
  match extractEntry sys root limits detected state.1 (member.map Member.entry) w with
  | (.ok progress, w') =>
      (.ok (progress, (newEffects w w').foldr (Contents.apply (bodyOf member)) state.2), w')
  | (.error e, w') => (.error e, w')

def extractMembers (members : Members) : Extraction Contents := do
  openArchive sys
  let detected ← Run.ofExcept id (detectArchiveRootPrefix (itemsOf members))
  openArchive sys
  let (_, contents) ←
    Run.foldM (extractMember sys root limits detected) (start, fun _ => none) members
  return contents

end Extract

/-! ## The manifest that the resolver reads -/

def manifestName : Str := lit "package.json"

/-- The last component of the path is `package.json`. -/
def isManifest (entry : TarEntry) : Bool :=
  match entry.path with
  | .ok raw => (components raw).getLast? = some (.normal manifestName)
  | .error _ => false

def readToString (bytes : Bytes) : Except Str Str :=
  match Bytes.text bytes with
  | some contents => .ok contents
  | none => .error (lit "stream did not contain valid UTF-8")

def Member.readToString (member : Member) : Except Str Str :=
  if member.entry.intact then Archive.readToString member.body else .error member.failure

theorem Member.readToString_of_intact {member : Member} (h : member.entry.intact = true) :
    member.readToString = Archive.readToString member.body := if_pos h

/-- `serde_json` reads the text; the parent of `package.json` is the empty path. -/
def fromJson (serde : Str → Except Str PackageManifest) (contents : Str) :
    Except Str PackageManifest :=
  match serde contents with
  | .ok manifest => .ok { manifest with sourceDir := some [] }
  | .error e => .error (lit "invalid JSON in package.json at package.json: " ++ e)

def parseRead (serde : Str → Except Str PackageManifest) :
    Except Str Str → Except Str PackageManifest
  | .ok contents => fromJson serde contents
  | .error e => .error (lit "cannot read package.json from tarball: " ++ e)

def manifestFromTarball (serde : Str → Except Str PackageManifest) :
    Members → Except Str PackageManifest
  | [] => .error (lit "tarball does not contain package.json")
  | .error reason :: _ => .error (lit "corrupt tar entry: " ++ reason)
  | .ok member :: rest =>
      match member.entry.path with
      | .error reason => .error (lit "invalid tar entry path: " ++ reason)
      | .ok _ =>
          if isManifest member.entry then parseRead serde member.readToString
          else manifestFromTarball serde rest

/-- What is recorded of an archive with a manifest. -/
def recordManifest (crates : Crates) (sha512 : Bytes → Str) (url : Str) (bytes : Bytes)
    (source : LockSource) (manifest : PackageManifest) : Except Str SourceResolution :=
  match manifest.name with
  | none => .error (lit "tarball " ++ url ++ lit " package.json has no name")
  | some name =>
      match manifest.version with
      | none => .error (lit "tarball " ++ url ++ lit " package.json has no version")
      | some version =>
          match crates.parseVersion version with
          | some version =>
              .ok { metadata := workspaceMetadata name version (some manifest)
                    resolved := url
                    integrity := some (lit "sha512-" ++ sha512 bytes)
                    source := source
                    link := false
                    workspaceTarget := none
                    sourceDir := none }
          -- the program ends here
          | none => .error (lit "workspace versions are validated by the index")

def sourceFromTarballBytes (crates : Crates) (serde : Str → Except Str PackageManifest)
    (sha512 : Bytes → Str) (readTar : Bytes → Members) (url : Str) (bytes : Bytes)
    (source : LockSource) : Except Str SourceResolution :=
  (manifestFromTarball serde (readTar bytes)).bind (recordManifest crates sha512 url bytes source)

/-! ## The entries that decide -/

/-- The first entry that is taken for the manifest. -/
def firstManifest (members : Members) : Option Member :=
  members.findSome? fun member =>
    match member with
    | .ok member => if isManifest member.entry then some member else none
    | .error _ => none

def writesTo (key : Loc) (effects : List Effect) : Bool :=
  effects.any fun
    | .write loc _ => loc = key
    | _ => false

section Last

variable (sys : System) (root : Loc) (limits : ExtractionLimits)

/-- The last entry whose stream is written to a location. -/
def lastWriter (detected : Option Str) (key : Loc) :
    Progress → FileSystem.World → Option Member → Members → Option Member
  | _, _, last, [] => last
  | progress, w, last, member :: rest =>
      match extractEntry sys root limits detected progress (member.map Member.entry) w with
      | (.error _, _) => last
      | (.ok progress', w') =>
          lastWriter detected key progress' w'
            (if writesTo key (newEffects w w') then member.toOption else last) rest

/-- The entry that the extraction of an archive leaves at a location. -/
def placedBy (members : Members) (w : FileSystem.World) (key : Loc) : Option Member :=
  match detectArchiveRootPrefix (itemsOf members) with
  | .error _ => none
  | .ok detected =>
      lastWriter sys root limits detected key start { w with calls := w.calls + 2 } none members

end Last

/-- The entry is a file, and its path without the archive's root is this one. -/
def isFileAt (detected : Option Str) (rel : List Str) (entry : TarEntry) : Bool :=
  entry.entryType.isRegular &&
    match entry.path with
    | .ok raw =>
        match relativePath detected raw with
        | .ok rel' => rel' = rel
        | .error _ => false
    | .error _ => false

/-- The last file entry with a path. -/
def lastFileAt (detected : Option Str) (rel : List Str) (members : Members) : Option Member :=
  (members.filterMap fun member =>
    match member with
    | .ok member => if isFileAt detected rel member.entry then some member else none
    | .error _ => none).getLast?

/-! ## What one entry leaves -/

section Steps

variable {sys : System} {root : Loc} {limits : ExtractionLimits} {detected : Option Str}
  {w w' : FileSystem.World}

theorem newEffects_of_append {new : List Effect} (h : w'.effects = new ++ w.effects) :
    newEffects w w' = new := by
  rw [newEffects, h, List.length_append, Nat.add_sub_cancel, List.take_left]

theorem apply_plain (body : Bytes) {new : List Effect} (h : ∀ e ∈ new, e.plain = true)
    (contents : Contents) : new.foldr (Contents.apply body) contents = contents := by
  induction new with
  | nil => rfl
  | cons e new ih =>
    rw [List.foldr_cons, ih fun e' he' => h e' (List.mem_cons_of_mem e he')]
    have hplain := h e List.mem_cons_self
    cases e with
    | create loc | truncate loc | write loc bytes => cases hplain
    | _ => rfl

theorem writesTo_plain {key : Loc} {new : List Effect} (h : ∀ e ∈ new, e.plain = true) :
    writesTo key new = false := by
  apply List.any_eq_false.mpr
  intro e he
  have hplain := h e he
  cases e with
  | write loc bytes => cases hplain
  | _ => simp

theorem onPath_eq_ok {α : Type} {names : List Str} {m : Io α} {a : α} :
    onPath names m w = (.ok a, w') ↔ m w = (.ok a, w') := by
  unfold onPath
  rcases hres : m w with ⟨e | b, w₁⟩
  · simp
  · simp

theorem create_ok {rel : List Str} {loc : Loc} (h : create sys root rel w = (.ok loc, w')) :
    w'.effects = .create loc :: w.effects ∨ w'.effects = .truncate loc :: w.effects := by
  unfold create call at h
  split at h
  · cases h
  · dsimp only at h
    split at h
    · split at h
      · cases h
        exact Or.inr rfl
      · cases h
    · cases h
      exact Or.inl rfl
    · cases h
    · cases h
    · cases h

theorem writeAll_ok {loc : Loc} {bytes : Nat} {intact : Bool} {u : Unit}
    (h : writeAll sys loc bytes intact w = (.ok u, w')) :
    intact = true ∧ w'.effects = .write loc bytes :: w.effects := by
  unfold writeAll call at h
  split at h
  · cases h
  · cases intact with
    | true =>
      cases h
      exact ⟨rfl, rfl⟩
    | false => cases h

/-- A file is opened after its directories are made, and all of it is written. -/
theorem extractFile_ok {progress progress' : Progress} {entry : TarEntry} {rel : List Str}
    (h : extractFile sys root limits progress entry rel w = (.ok progress', w')) :
    entry.intact = true ∧ ∃ w₁ w₂ loc pre post opened,
      createDirAll sys root rel.tail w = (.ok (), w₁) ∧
      create sys root rel w₁ = (.ok loc, w₂) ∧ (opened = .create loc ∨ opened = .truncate loc) ∧
      w'.effects = post ++ .write loc entry.content :: opened :: pre ++ w.effects ∧
      (∀ e ∈ pre, e.plain = true) ∧ ∀ e ∈ post, e.plain = true := by
  unfold extractFile at h
  obtain ⟨total, w₀, hreserve, hrest⟩ := Run.bind_eq_ok.mp h
  obtain ⟨_, w₁, hdirs, hrest⟩ := Run.bind_eq_ok.mp hrest
  obtain ⟨loc, w₂, hcreate, hrest⟩ := Run.bind_eq_ok.mp hrest
  obtain ⟨_, w₃, hwrite, hrest⟩ := Run.bind_eq_ok.mp hrest
  obtain ⟨default, w₄, hmode, hrest⟩ := Run.bind_eq_ok.mp hrest
  obtain ⟨_, w₅, hadjust, hrest⟩ := Run.bind_eq_ok.mp hrest
  cases hrest
  have hsame : w₀ = w := by
    cases hcase : reserveFile limits progress entry.size rel with
    | error e =>
      rw [hcase] at hreserve
      cases hreserve
    | ok total' =>
      rw [hcase] at hreserve
      cases hreserve
      rfl
  rw [hsame] at hdirs
  have hcreated := onPath_eq_ok.mp hcreate
  obtain ⟨hintact, hwritten⟩ := writeAll_ok (onPath_eq_ok.mp hwrite)
  obtain ⟨pre, hpre, hplain⟩ := (plain_onPath _ (plain_createDirAll rel.tail)).of_eq hdirs
  obtain ⟨post, hpost, hplain'⟩ := plain_append
    ((plain_onPath _ (plain_defaultMode progress loc)).of_eq hmode)
    ((plain_onPath _ (plain_adjustMode default (normalizedMode entry.mode) rel)).of_eq hadjust)
  refine ⟨hintact, w₁, w₂, loc, pre, post, ?_⟩
  rcases create_ok hcreated with hopened | hopened
  · refine ⟨.create loc, onPath_eq_ok.mp hdirs, hcreated, Or.inl rfl, ?_, hplain, hplain'⟩
    rw [hpost, hwritten, hopened, hpre]
    simp
  · refine ⟨.truncate loc, onPath_eq_ok.mp hdirs, hcreated, Or.inr rfl, ?_, hplain, hplain'⟩
    rw [hpost, hwritten, hopened, hpre]
    simp

/-- What an entry leaves that is extracted: a file, or none. -/
inductive Extracted (sys : System) (root : Loc) (detected : Option Str) (entry : TarEntry)
    (w w' : FileSystem.World) : Prop
  | other {new : List Effect} (heffects : w'.effects = new ++ w.effects)
      (hplain : ∀ e ∈ new, e.plain = true)
      (hfile : ∀ rel, rel ≠ [] → isFileAt detected rel entry = false)
  | file {rel : List Str} {w₁ w₂ : FileSystem.World} {loc : Loc} {pre post : List Effect} {opened : Effect}
      (hrel : rel ≠ []) (hfile : ∀ rel', isFileAt detected rel' entry = true ↔ rel' = rel)
      (hintact : entry.intact = true)
      (hdirs : createDirAll sys root rel.tail w = (.ok (), w₁))
      (hcreate : create sys root rel w₁ = (.ok loc, w₂))
      (hopened : opened = .create loc ∨ opened = .truncate loc)
      (heffects : w'.effects = post ++ .write loc entry.content :: opened :: pre ++ w.effects)
      (hpre : ∀ e ∈ pre, e.plain = true) (hpost : ∀ e ∈ post, e.plain = true)

theorem isFileAt_iff {entry : TarEntry} {raw : Str} {rel rel' : List Str}
    (hraw : entry.path = .ok raw) (hrel : relativePath detected raw = .ok rel) :
    isFileAt detected rel' entry = true ↔ entry.entryType.isRegular = true ∧ rel' = rel := by
  rw [isFileAt, hraw]
  dsimp only
  rw [hrel, Bool.and_eq_true, decide_eq_true_eq, eq_comm (a := rel')]

theorem extractEntry_extracted {progress progress' : Progress} {item : Except Str TarEntry}
    (h : extractEntry sys root limits detected progress item w = (.ok progress', w')) :
    ∃ entry, item = .ok entry ∧ (∃ raw, entry.path = .ok raw) ∧
      Extracted sys root detected entry w w' := by
  rcases extractEntry_cases sys root detected progress item with
    ⟨e, _, hrun⟩ | ⟨entry, raw, rel, rfl, ⟨hraw, hrel⟩, _, hrun⟩
  · rw [hrun limits] at h
    cases h
  rw [hrun limits] at h
  refine ⟨entry, rfl, ⟨raw, hraw⟩, ?_⟩
  have hat : ∀ {rel'}, isFileAt detected rel' entry = true ↔
      entry.entryType.isRegular = true ∧ rel' = rel := isFileAt_iff hraw hrel
  -- an entry that is no file leaves plain effects
  have hother : ∀ {m : Extraction Progress}, Plain m → m w = (.ok progress', w') →
      (rel = [] ∨ ¬ entry.entryType.isRegular = true) →
      Extracted sys root detected entry w w' := by
    intro m hplain hm hno
    obtain ⟨new, heffects, hnew⟩ := hplain.of_eq hm
    refine .other heffects hnew fun rel' hne => ?_
    rw [← Bool.not_eq_true, hat]
    rintro ⟨hregular, rfl⟩
    exact hno.elim hne fun hnot => hnot hregular
  unfold extractAt at h
  split at h
  · rename_i hnil
    exact hother (.pure _) h (Or.inl hnil)
  · rename_i hne
    split at h
    · cases h
    · split at h
      · rename_i hheader
        exact hother (.pure _) h (Or.inr (not_regular_of_header hheader))
      · obtain ⟨observed, w₀, hobserve, hrest⟩ := Run.bind_eq_ok.mp h
        have hsame : w₀ = w := by
          cases hcase : observe { progress with entries := progress.entries + 1 } rel
              entry.entryType with
          | error e =>
            rw [hcase] at hobserve
            cases hobserve
          | ok observed' =>
            rw [hcase] at hobserve
            cases hobserve
            rfl
        rw [hsame] at hrest
        have hfile : extractFile sys root limits observed entry rel w = (.ok progress', w') →
            entry.entryType.isRegular = true → Extracted sys root detected entry w w' := by
          intro hextract hregular
          obtain ⟨hintact, w₁, w₂, loc, pre, post, opened, hdirs, hcreate, hopened, heffects,
            hpre, hpost⟩ := extractFile_ok hextract
          refine .file hne (fun rel' => ?_) hintact hdirs hcreate hopened heffects hpre hpost
          rw [hat]
          simp [hregular]
        unfold extractAs at hrest
        cases htype : entry.entryType with
        | regular | continuous =>
          rw [htype] at hrest hfile
          exact hfile hrest rfl
        | directory =>
          rw [htype] at hrest
          exact hother (plain_extractDirectory observed rel) hrest (Or.inr (by rw [htype]; nofun))
        | symlink =>
          rw [htype] at hrest
          exact hother (plain_extractSymlink observed entry raw rel) hrest
            (Or.inr (by rw [htype]; nofun))
        | xGlobalHeader | xHeader | gnuLongName | gnuLongLink =>
          rw [htype] at hrest
          exact hother (.pure _) hrest (Or.inr (by rw [htype]; nofun))
        | other name =>
          rw [htype] at hrest
          cases hrest

theorem writesTo_append {key : Loc} (front back : List Effect) :
    writesTo key (front ++ back) = (writesTo key front || writesTo key back) :=
  List.any_append

theorem writesTo_file {key loc : Loc} {bytes : Nat} {pre post : List Effect} {opened : Effect}
    (hopened : opened = .create loc ∨ opened = .truncate loc) (hpre : ∀ e ∈ pre, e.plain = true)
    (hpost : ∀ e ∈ post, e.plain = true) :
    writesTo key (post ++ .write loc bytes :: opened :: pre) = decide (loc = key) := by
  have hwrites : writesTo key (opened :: pre) = false := by
    rw [← List.singleton_append, writesTo_append, writesTo_plain hpre]
    rcases hopened with rfl | rfl
    · rfl
    · rfl
  rw [writesTo_append, writesTo_plain hpost, Bool.false_or, ← List.singleton_append,
    writesTo_append, hwrites, Bool.or_false]
  simp [writesTo]

/-- A file holds the stream that was written to it, and else what it held. -/
theorem Extracted.apply {member : Member} (h : Extracted sys root detected member.entry w w')
    (contents : Contents) (key : Loc) :
    (newEffects w w').foldr (Contents.apply member.body) contents key =
        (if writesTo key (newEffects w w') then some member.body else contents key) ∧
      (writesTo key (newEffects w w') = true → member.entry.intact = true) := by
  cases h with
  | other heffects hplain hfile =>
    rw [newEffects_of_append heffects, apply_plain member.body hplain, writesTo_plain hplain]
    exact ⟨rfl, nofun⟩
  | @file rel w₁ w₂ loc pre post opened hrel hfile hintact hdirs hcreate hopened heffects hpre
      hpost =>
    refine ⟨?_, fun _ => hintact⟩
    have hopen : ∀ contents : Contents, Contents.apply member.body opened contents =
        Function.update contents loc (some []) := by
      intro contents
      rcases hopened with rfl | rfl
      · rfl
      · rfl
    rw [newEffects_of_append heffects, writesTo_file hopened hpre hpost, List.foldr_append,
      List.foldr_cons, List.foldr_cons, apply_plain member.body hpre,
      apply_plain member.body hpost, hopen]
    show Function.update (Function.update contents loc (some [])) loc (some member.body) key = _
    rw [Function.update_idem]
    by_cases hkey : loc = key
    · simp [hkey]
    · rw [Function.update_of_ne (Ne.symm hkey)]
      simp [hkey]

end Steps

/-! ## The run -/

section Runs

variable {sys : System} {root : Loc} {limits : ExtractionLimits} {detected : Option Str}
  {w w' : FileSystem.World} {members : Members}

/-- Keeping track of what files hold changes nothing. -/
theorem foldM_extractMember (progress : Progress) (contents : Contents) (members : Members)
    (w : FileSystem.World) :
    Run.foldM (extractEntry sys root limits detected) progress (itemsOf members) w =
      ((Run.foldM (extractMember sys root limits detected) (progress, contents) members w).1.map
          Prod.fst,
        (Run.foldM (extractMember sys root limits detected) (progress, contents) members w).2) := by
  induction members generalizing progress contents w with
  | nil => rfl
  | cons member rest ih =>
    rw [itemsOf, List.map_cons, Run.foldM, Run.foldM]
    rcases hrun : extractEntry sys root limits detected progress (member.map Member.entry) w with
      ⟨e | progress', w₁⟩
    · have hmember : extractMember sys root limits detected (progress, contents) member w =
          (.error e, w₁) := by
        rw [extractMember, hrun]
      rw [Run.bind_error hrun, Run.bind_error hmember]
      rfl
    · have hmember : extractMember sys root limits detected (progress, contents) member w =
          (.ok (progress', (newEffects w w₁).foldr (Contents.apply (bodyOf member)) contents),
            w₁) := by
        rw [extractMember, hrun]
      rw [Run.bind_ok hrun, Run.bind_ok hmember]
      exact ih progress' _ w₁

/-- The extraction is the one without its contents. -/
theorem extractWithLimits_members (members : Members) (w : FileSystem.World) :
    extractWithLimits sys root limits (itemsOf members) w =
      ((extractMembers sys root limits members w).1.map fun _ => (),
        (extractMembers sys root limits members w).2) := by
  unfold extractWithLimits extractMembers
  rcases hopen : openArchive sys w with ⟨e | _, w₁⟩
  · rw [Run.bind_error hopen, Run.bind_error hopen]
    rfl
  rw [Run.bind_ok hopen, Run.bind_ok hopen]
  cases hdetected : detectArchiveRootPrefix (itemsOf members) with
  | error e => rfl
  | ok detected =>
    show (openArchive sys >>= _) w₁ =
      (((openArchive sys >>= _) w₁).1.map _, ((openArchive sys >>= _) w₁).2)
    rcases hopen' : openArchive sys w₁ with ⟨e | _, w₂⟩
    · rw [Run.bind_error hopen', Run.bind_error hopen']
      rfl
    rw [Run.bind_ok hopen', Run.bind_ok hopen', Run.bind_apply, Run.bind_apply]
    rw [show (⟨[], 0, 0, none⟩ : Progress) = start from rfl,
      foldM_extractMember start (fun _ => none) members w₂]
    rcases Run.foldM (extractMember sys root limits detected) (start, fun _ => none) members w₂ with
      ⟨e | ⟨progress, contents⟩, w₃⟩
    · rfl
    · rfl

theorem extractMember_ok {state state' : Progress × Contents} {member : Except Str Member}
    (h : extractMember sys root limits detected state member w = (.ok state', w')) :
    extractEntry sys root limits detected state.1 (member.map Member.entry) w =
        (.ok state'.1, w') ∧
      state'.2 = (newEffects w w').foldr (Contents.apply (bodyOf member)) state.2 := by
  unfold extractMember at h
  split at h
  · rename_i hrun
    cases h
    exact ⟨hrun, rfl⟩
  · cases h

/-- What a file holds at the end is the stream of the last entry written to it. -/
theorem foldM_contents {state state' : Progress × Contents} {key : Loc} (last : Option Member)
    (h : Run.foldM (extractMember sys root limits detected) state members w = (.ok state', w'))
    (hkey : state.2 key = last.map Member.body)
    (hintact : ∀ member ∈ last, member.entry.intact = true) :
    state'.2 key =
        (lastWriter sys root limits detected key state.1 w last members).map Member.body ∧
      ∀ member ∈ lastWriter sys root limits detected key state.1 w last members,
        member.entry.intact = true := by
  induction members generalizing state w last with
  | nil =>
    cases h
    exact ⟨hkey, hintact⟩
  | cons item rest ih =>
    obtain ⟨state₁, w₁, hmember, hrest⟩ := Run.bind_eq_ok.mp h
    obtain ⟨hentry, hcontents⟩ := extractMember_ok hmember
    rw [lastWriter, hentry]
    obtain ⟨entry, hitem, -, hextracted⟩ := extractEntry_extracted hentry
    cases item with
    | error reason => cases hitem
    | ok member =>
      cases hitem
      obtain ⟨happly, hwritten⟩ := hextracted.apply state.2 key
      apply ih _ hrest
      · rw [hcontents]
        show (newEffects w w₁).foldr (Contents.apply member.body) state.2 key = _
        rw [happly, hkey]
        split
        · rfl
        · rfl
      · intro found hfound
        split at hfound
        · rename_i hwrites
          cases hfound
          exact hwritten hwrites
        · exact hintact found hfound

/-- An extraction that succeeds has come upon no corrupt entry and no bad path. -/
theorem foldM_readable {state state' : Progress × Contents}
    (h : Run.foldM (extractMember sys root limits detected) state members w = (.ok state', w')) :
    ∀ item ∈ members, ∃ member, item = .ok member ∧ ∃ raw, member.entry.path = .ok raw := by
  induction members generalizing state w with
  | nil => exact nofun
  | cons item rest ih =>
    obtain ⟨state₁, w₁, hmember, hrest⟩ := Run.bind_eq_ok.mp h
    obtain ⟨entry, hitem, hpath, -⟩ := extractEntry_extracted (extractMember_ok hmember).1
    intro item' hmem
    rcases List.mem_cons.mp hmem with rfl | hmem
    · cases item' with
      | error reason => cases hitem
      | ok member =>
        cases hitem
        exact ⟨member, rfl, hpath⟩
    · exact ih hrest item' hmem

theorem openArchive_ok {u : Unit} (h : openArchive sys w = (.ok u, w')) :
    w' = { w with calls := w.calls + 1 } := by
  unfold openArchive call at h
  by_cases hfails : sys.fails w.calls = true
  · rw [if_pos hfails] at h
    cases h
  · rw [if_neg hfails] at h
    cases h
    rfl

theorem extractMembers_ok {contents : Contents}
    (h : extractMembers sys root limits members w = (.ok contents, w')) :
    ∃ detected progress, detectArchiveRootPrefix (itemsOf members) = .ok detected ∧
      Run.foldM (extractMember sys root limits detected) (start, fun _ => none) members
        { w with calls := w.calls + 2 } = (.ok (progress, contents), w') := by
  unfold extractMembers at h
  obtain ⟨_, w₁, hopen, hrest⟩ := Run.bind_eq_ok.mp h
  obtain ⟨detected, w₂, hdetect, hrest⟩ := Run.bind_eq_ok.mp hrest
  obtain ⟨_, w₃, hopen', hrest⟩ := Run.bind_eq_ok.mp hrest
  obtain ⟨⟨progress, contents'⟩, w₄, hfold, hrest⟩ := Run.bind_eq_ok.mp hrest
  cases hrest
  cases hdetected : detectArchiveRootPrefix (itemsOf members) with
  | error e =>
    rw [hdetected] at hdetect
    cases hdetect
  | ok detected' =>
    rw [hdetected] at hdetect
    cases hdetect
    have hworld := openArchive_ok hopen'
    rw [openArchive_ok hopen] at hworld
    refine ⟨detected, progress, rfl, ?_⟩
    rw [← hfold, hworld]

end Runs

/-! ## The manifest that is read -/

section Reading

variable {members : Members}

/-- With entries that can be read, the first manifest decides. -/
theorem manifestFromTarball_eq (serde : Str → Except Str PackageManifest)
    (hreadable : ∀ item ∈ members, ∃ member, item = .ok member ∧
      ∃ raw, member.entry.path = .ok raw) :
    manifestFromTarball serde members =
      match firstManifest members with
      | some first => parseRead serde first.readToString
      | none => .error (lit "tarball does not contain package.json") := by
  induction members with
  | nil => rfl
  | cons item rest ih =>
    obtain ⟨member, rfl, raw, hraw⟩ := hreadable item List.mem_cons_self
    rw [manifestFromTarball, hraw, firstManifest, List.findSome?_cons]
    dsimp only
    by_cases hmanifest : isManifest member.entry = true
    · rw [if_pos hmanifest, if_pos hmanifest]
    · rw [if_neg hmanifest, if_neg hmanifest]
      exact ih fun item hitem => hreadable item (List.mem_cons_of_mem _ hitem)

/-- A manifest with nothing but a name. -/
def namedManifest (name : Str) : PackageManifest where
  sourceDir := none
  name := some name
  version := none
  bin := none
  scripts := ∅
  dependencies := ∅
  devDependencies := ∅
  peerDependencies := ∅
  optionalDependencies := ∅
  peerDependenciesMeta := ∅
  overrides := ∅
  os := []
  cpu := []
  libc := []

/-- Two texts are read alike by every reader when they are the same. -/
theorem parseRead_eq_iff {read read' : Except Str Str} :
    (∀ serde, parseRead serde read = parseRead serde read') ↔ read = read' := by
  constructor
  · intro hall
    have hsame := hall fun contents => .ok (namedManifest contents)
    cases read with
    | ok contents =>
      cases read' with
      | ok contents' =>
        have hname := congrArg (fun r => r.toOption.bind PackageManifest.name) hsame
        exact congrArg Except.ok (Option.some.inj hname)
      | error e => cases hsame
    | error e =>
      cases read' with
      | ok contents' => cases hsame
      | error e' =>
        rw [parseRead, parseRead] at hsame
        exact congrArg Except.error (List.append_cancel_left (Except.error.inj hsame))
  · rintro rfl serde
    rfl

theorem exists_parseRead_ne (read : Except Str Str) :
    ∃ serde, parseRead serde read ≠ .error (lit "tarball does not contain package.json") := by
  refine ⟨fun contents => .ok (namedManifest contents), fun heq => ?_⟩
  cases read with
  | ok contents => cases heq
  | error e =>
    rw [parseRead] at heq
    have hhead := congrArg List.head? (Except.error.inj heq)
    simp [lit] at hhead

end Reading

/-! ## Archives without links -/

section Linkless

variable {sys : System} {root : Loc} {limits : ExtractionLimits} {detected : Option Str}
  {w w' : FileSystem.World} {members : Members}

/-- Without links a file is created where its path says. -/
theorem create_loc {isLink : Loc → Prop} (hconfined : Confined root isLink w)
    (hnone : ∀ loc, ¬ isLink loc) {rel : List Str} {loc : Loc}
    (h : create sys root rel w = (.ok loc, w')) : loc = rel ++ root := by
  have hfree : ∀ first, first ≠ [] → first <+: rel.reverse →
      ∀ target, w.tree (first.reverse ++ root) ≠ some (.link target) := by
    intro first hne _ target hlink
    rcases hreverse : first.reverse with _ | ⟨name, parent⟩
    · exact hne (List.reverse_eq_nil_iff.mp hreverse)
    · rw [hreverse] at hlink
      exact hnone _ (hconfined.tame name (parent ++ root) target (List.suffix_append parent root)
        hlink).1
  unfold create call at h
  split at h
  · cases h
  · dsimp only at h
    split at h
    · rename_i found hfound
      split at h
      · cases h
        have hloc := walk_names hfree hfound
        rwa [List.reverse_reverse] at hloc
      · cases h
    · rename_i parent name hmissing
      cases h
      have hloc := walk_missing hfree hmissing
      rwa [List.reverse_reverse] at hloc
    · cases h
    · cases h
    · cases h

/-- Without links the location that is written to is the path of the entry. -/
theorem Extracted.writesTo_eq {entry : TarEntry} {isLink : Loc → Prop}
    (h : Extracted sys root detected entry w w') (hconfined : Confined root isLink w)
    (hnone : ∀ loc, ¬ isLink loc) {rel : List Str} (hrel : rel ≠ []) :
    writesTo (rel ++ root) (newEffects w w') = isFileAt detected rel entry := by
  cases h with
  | other heffects hplain hfile =>
    rw [newEffects_of_append heffects, writesTo_plain hplain, hfile rel hrel]
  | @file rel' w₁ w₂ loc pre post opened hne hfile hintact hdirs hcreate hopened heffects hpre
      hpost =>
    have hconfined₁ : Confined root isLink w₁ := by
      have hkept := (@keeps_createDirAll sys root isLink rel'.tail w hconfined).1
      rwa [hdirs] at hkept
    rw [newEffects_of_append heffects, writesTo_file hopened hpre hpost,
      create_loc hconfined₁ hnone hcreate, Bool.eq_iff_iff, decide_eq_true_eq, hfile]
    constructor
    · intro heq
      exact (List.append_cancel_right heq).symm
    · rintro rfl
      rfl

/-- The last entry written to a location of an archive without links is the last file with
that path. -/
theorem lastWriter_eq_lastFileAt (last : Option Member) {items : Items}
    (hlinks : linksOf detected items = [])
    (hitems : ∀ member ∈ members, member.map Member.entry ∈ items) {rel : List Str}
    (hrel : rel ≠ []) {state state' : Progress × Contents}
    (hconfined : Confined root (Below root fun names => ∃ link ∈ linksOf detected items,
      link.1 = names) w)
    (h : Run.foldM (extractMember sys root limits detected) state members w = (.ok state', w')) :
    lastWriter sys root limits detected (rel ++ root) state.1 w last members =
      (lastFileAt detected rel members).or last := by
  have hnone : ∀ loc, ¬ Below root (fun names => ∃ link ∈ linksOf detected items,
      link.1 = names) loc := by
    rintro loc ⟨names, ⟨link, hlink, _⟩, _⟩
    rw [hlinks] at hlink
    cases hlink
  have hapart : LinksApart (linksOf detected items) := by
    rw [hlinks]
    exact ⟨nofun, nofun⟩
  induction members generalizing state w last with
  | nil => rfl
  | cons item rest ih =>
    obtain ⟨state₁, w₁, hmember, hrest⟩ := Run.bind_eq_ok.mp h
    obtain ⟨hentry, -⟩ := extractMember_ok hmember
    obtain ⟨entry, hitem, -, hextracted⟩ := extractEntry_extracted hentry
    have hconfined₁ := (@keeps_extractEntry sys root limits detected items hapart state.1 _
      (hitems item List.mem_cons_self) w hconfined).1
    rw [hentry] at hconfined₁
    rw [lastWriter, hentry]
    dsimp only
    rw [ih _ (fun member hmem => hitems member (List.mem_cons_of_mem item hmem)) hconfined₁ hrest]
    cases item with
    | error reason => cases hitem
    | ok member =>
      cases hitem
      rw [hextracted.writesTo_eq hconfined hnone hrel, lastFileAt, lastFileAt,
        List.filterMap_cons]
      dsimp only
      by_cases hfile : isFileAt detected rel member.entry = true
      · rw [if_pos hfile, if_pos hfile, List.getLast?_cons]
        rcases List.getLast? _ with _ | found
        · rfl
        · rfl
      · rw [if_neg hfile, if_neg hfile]

end Linkless

/-! ## One manifest -/

section Main

variable {sys : System} {root : Loc} {limits : ExtractionLimits} {tree : Tree} {w w' : FileSystem.World}
  {members : Members} {contents : Contents} {installed : Bytes}

/-- The file that is left was read to its end. -/
theorem placedBy_of_installed {key : Loc}
    (hrun : extractMembers sys root limits members w = (.ok contents, w'))
    (hfile : contents key = some installed) :
    ∃ last, placedBy sys root limits members w key = some last ∧
      last.readToString = readToString installed := by
  obtain ⟨detected, progress, hdetected, hfold⟩ := extractMembers_ok hrun
  obtain ⟨hcontents, hintact⟩ := foldM_contents none hfold rfl nofun
  rw [placedBy, hdetected]
  dsimp only
  have hlast : contents key = _ := hcontents
  rw [hfile] at hlast
  obtain ⟨last, hwriter, hbody⟩ := Option.map_eq_some_iff.mp hlast.symm
  refine ⟨last, hwriter, ?_⟩
  rw [Member.readToString_of_intact (hintact last hwriter), hbody]

theorem manifestFromTarball_of_first {first : Member}
    (hrun : extractMembers sys root limits members w = (.ok contents, w'))
    (hfirst : firstManifest members = some first) (serde : Str → Except Str PackageManifest) :
    manifestFromTarball serde members = parseRead serde first.readToString := by
  obtain ⟨detected, progress, -, hfold⟩ := extractMembers_ok hrun
  rw [manifestFromTarball_eq serde (foldM_readable hfold), hfirst]

theorem manifestFromTarball_of_none
    (hrun : extractMembers sys root limits members w = (.ok contents, w'))
    (hfirst : firstManifest members = none) (serde : Str → Except Str PackageManifest) :
    manifestFromTarball serde members = .error (lit "tarball does not contain package.json") := by
  obtain ⟨detected, progress, -, hfold⟩ := extractMembers_ok hrun
  rw [manifestFromTarball_eq serde (foldM_readable hfold), hfirst]

/-- What is recorded is what the installed manifest says, when the first manifest says the
same as the last. -/
theorem sourceFromTarballBytes_installed {readTar : Bytes → Members} {bytes : Bytes}
    (hrun : extractMembers sys root limits (readTar bytes) w = (.ok contents, w'))
    (hfile : contents (manifestName :: root) = some installed) {first last : Member}
    (hfirst : firstManifest (readTar bytes) = some first)
    (hlast : placedBy sys root limits (readTar bytes) w (manifestName :: root) = some last)
    (hsame : first.readToString = last.readToString) (crates : Crates)
    (serde : Str → Except Str PackageManifest) (sha512 : Bytes → Str) (url : Str)
    (source : LockSource) :
    sourceFromTarballBytes crates serde sha512 readTar url bytes source =
      (parseRead serde (readToString installed)).bind
        (recordManifest crates sha512 url bytes source) := by
  obtain ⟨last', hplaced, hread⟩ := placedBy_of_installed hrun hfile
  rw [hlast] at hplaced
  cases hplaced
  rw [sourceFromTarballBytes, manifestFromTarball_of_first hrun hfirst, hsame, hread]

/-- The resolver reads the manifest that an extraction installs when the first manifest of
the archive says the same as the last one that gets to the image root.  In an archive
without links that is the last file whose path says so. -/
theorem manifestFromTarball_installed_iff
    (hrun : extractMembers sys root limits members ⟨tree, [], 0⟩ = (.ok contents, w'))
    (hfile : contents (manifestName :: root) = some installed) :
    ((∀ serde, manifestFromTarball serde members = parseRead serde (readToString installed)) ↔
      ∃ first last, firstManifest members = some first ∧
        placedBy sys root limits members ⟨tree, [], 0⟩ (manifestName :: root) = some last ∧
        first.readToString = last.readToString) ∧
    ∀ detected, detectArchiveRootPrefix (itemsOf members) = .ok detected →
      linksOf detected (itemsOf members) = [] →
      (∀ loc target, root <:+ loc → tree loc ≠ some (.link target)) →
      placedBy sys root limits members ⟨tree, [], 0⟩ (manifestName :: root) =
        lastFileAt detected [manifestName] members := by
  obtain ⟨last, hplaced, hlast⟩ := placedBy_of_installed hrun hfile
  constructor
  · rw [← hlast]
    cases hfirst : firstManifest members with
    | none =>
      constructor
      · intro hall
        obtain ⟨serde, hne⟩ := exists_parseRead_ne last.readToString
        exact absurd ((hall serde).symm.trans (manifestFromTarball_of_none hrun hfirst serde)) hne
      · rintro ⟨first, last', hcase, -⟩
        cases hcase
    | some first =>
      have hread := manifestFromTarball_of_first hrun hfirst
      constructor
      · intro hall
        have hsame := parseRead_eq_iff.mp fun serde => (hread serde).symm.trans (hall serde)
        exact ⟨first, last, rfl, hplaced, hsame⟩
      · rintro ⟨first', last', hfirst', hplaced', hsame⟩
        cases hfirst'
        rw [hplaced] at hplaced'
        cases hplaced'
        intro serde
        rw [hread serde, hsame]
  · intro detected hdetected hlinks hfresh
    obtain ⟨detected', progress, hdetected', hfold⟩ := extractMembers_ok hrun
    rw [hdetected] at hdetected'
    cases hdetected'
    have hconfined : Confined root (Below root fun names =>
        ∃ link ∈ linksOf detected (itemsOf members), link.1 = names) ⟨tree, [], 2⟩ := by
      refine ⟨fun name loc target hloc hnode => ?_, nofun⟩
      exact absurd hnode (hfresh _ target (hloc.trans (List.suffix_cons name loc)))
    have hwriter := lastWriter_eq_lastFileAt none hlinks
      (fun member hmem => List.mem_map_of_mem hmem)
      (List.cons_ne_nil manifestName []) hconfined hfold
    rw [placedBy, hdetected]
    dsimp only
    rw [Option.or_none] at hwriter
    exact hwriter

end Main

/-- A manifest of a name. -/
def manifestText (name : Str) : Str := lit "\x7b\"name\":\"" ++ name ++ lit "\"\x7d"

def manifestMember (path name : Str) : Member where
  entry := ⟨.ok path, .regular, (Bytes.utf8 (manifestText name)).length, 0o644, .ok none,
    (Bytes.utf8 (manifestText name)).length, true⟩
  body := Bytes.utf8 (manifestText name)
  failure := []
  length := rfl

theorem readToString_manifestMember (path name : Str) :
    (manifestMember path name).readToString = .ok (manifestText name) := by
  rw [Member.readToString_of_intact rfl, readToString]
  show (match Bytes.text (Bytes.utf8 (manifestText name)) with
    | some contents => Except.ok contents
    | none => Except.error (lit "stream did not contain valid UTF-8")) = _
  rw [Bytes.text_utf8]

/-- The manifest of the package. -/
def rootManifest : Member := manifestMember (lit "package/package.json") (lit "lib")

/-- A fixture of its tests. -/
def nestedManifest : Member := manifestMember (lit "package/test/package.json") (lit "fixture")

/-- What an extraction into an empty directory leaves in a file. -/
def extracted (members : Members) (key : Loc) : Option Bytes :=
  match (extractMembers plainSystem [lit "image"] defaultLimits members
    ⟨imageTree [lit "image"], [], 0⟩).1 with
  | .ok contents => contents key
  | .error _ => none

theorem extractMembers_of_extracted {members : Members} {key : Loc} {installed : Bytes}
    (h : extracted members key = some installed) :
    ∃ contents w', extractMembers plainSystem [lit "image"] defaultLimits members
        ⟨imageTree [lit "image"], [], 0⟩ = (.ok contents, w') ∧
      contents key = some installed := by
  unfold extracted at h
  rcases hrun : extractMembers plainSystem [lit "image"] defaultLimits members
    ⟨imageTree [lit "image"], [], 0⟩ with ⟨e | contents, w'⟩
  · rw [hrun] at h
    cases h
  · rw [hrun] at h
    exact ⟨contents, w', rfl, h⟩

/-- The fixture comes after the manifest of the package. -/
theorem manifestFromTarball_installed_root :
    ∃ contents w', extractMembers plainSystem [lit "image"] defaultLimits
        [.ok rootManifest, .ok nestedManifest] ⟨imageTree [lit "image"], [], 0⟩ =
          (.ok contents, w') ∧
      ∀ serde, manifestFromTarball serde [.ok rootManifest, .ok nestedManifest] =
        parseRead serde (readToString rootManifest.body) := by
  have hextracted : extracted [.ok rootManifest, .ok nestedManifest]
      (manifestName :: [lit "image"]) = some rootManifest.body := by
    decide +kernel
  obtain ⟨contents, w', hrun, hfile⟩ := extractMembers_of_extracted hextracted
  refine ⟨contents, w', hrun, (manifestFromTarball_installed_iff hrun hfile).1.mpr ?_⟩
  obtain ⟨last, hplaced, hlast⟩ := placedBy_of_installed hrun hfile
  have hfirst : firstManifest [.ok rootManifest, .ok nestedManifest] = some rootManifest := by
    have hmanifest : isManifest rootManifest.entry = true := by decide +kernel
    rw [firstManifest, List.findSome?_cons]
    dsimp only
    rw [if_pos hmanifest]
  refine ⟨rootManifest, last, hfirst, hplaced, ?_⟩
  rw [hlast, Member.readToString_of_intact rfl]

/-- The fixture comes before it. -/
theorem manifestFromTarball_reads_nested :
    ∃ contents w', extractMembers plainSystem [lit "image"] defaultLimits
        [.ok nestedManifest, .ok rootManifest] ⟨imageTree [lit "image"], [], 0⟩ =
          (.ok contents, w') ∧
      contents (manifestName :: [lit "image"]) = some rootManifest.body ∧
      ¬ ∀ serde, manifestFromTarball serde [.ok nestedManifest, .ok rootManifest] =
        parseRead serde (readToString rootManifest.body) := by
  have hextracted : extracted [.ok nestedManifest, .ok rootManifest]
      (manifestName :: [lit "image"]) = some rootManifest.body := by
    decide +kernel
  obtain ⟨contents, w', hrun, hfile⟩ := extractMembers_of_extracted hextracted
  refine ⟨contents, w', hrun, hfile, fun hall => ?_⟩
  have hfirst : firstManifest [.ok nestedManifest, .ok rootManifest] = some nestedManifest := by
    have hmanifest : isManifest nestedManifest.entry = true := by decide +kernel
    rw [firstManifest, List.findSome?_cons]
    dsimp only
    rw [if_pos hmanifest]
  have hsame := parseRead_eq_iff.mp fun serde =>
    (manifestFromTarball_of_first hrun hfirst serde).symm.trans (hall serde)
  rw [← Member.readToString_of_intact rfl, nestedManifest, rootManifest,
    readToString_manifestMember, readToString_manifestMember] at hsame
  have htexts : manifestText (lit "fixture") ≠ manifestText (lit "lib") := by decide +kernel
  exact htexts (Except.ok.inj hsame)

end Archive
end Bpm
