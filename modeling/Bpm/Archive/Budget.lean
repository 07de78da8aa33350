import Bpm.Archive

/-!
# The extraction budget

A regular file is charged with the size that its header declares, before anything
is created, and then all that its stream yields is copied.  The charges respect
the limits, and so do the copies as long as no stream outruns what has been
charged.  A pax record can make a stream longer than the header's size.
-/

namespace Bpm
namespace Archive

open Text FileTree FileSystem

/-- Whether an entry counts against the limit: it names a place other than the root. -/
def counted (detected : Option Str) : Except Str TarEntry → Bool
  | .error _ => false
  | .ok entry =>
      match entry.path with
      | .error _ => false
      | .ok raw =>
          match relativePath detected raw with
          | .error _ => false
          | .ok rel => rel ≠ []

/-- The file that an entry asks for. -/
def fileOf (detected : Option Str) (item : Except Str TarEntry) : Option TarEntry :=
  match item with
  | .error _ => none
  | .ok entry => if counted detected item && entry.entryType.isRegular then some entry else none

def filesOf (detected : Option Str) (items : Items) : List TarEntry :=
  items.filterMap (fileOf detected)

def start : Progress := ⟨[], 0, 0, none⟩

section Limits

variable (sys : System) (root : Loc) (limits : ExtractionLimits) (items : Items) (tree : Tree)

/-- The lengths of the writes of an extraction, the latest first. -/
def extractionWrites : List Nat :=
  written (extractWithLimits sys root limits items ⟨tree, [], 0⟩).2.effects

/-- What the limits promise: of the bytes of each file and of all of them, and that no more
entries are gone through than allowed, the next one being refused with nothing done. -/
structure WithinLimits : Prop where
  file : ∀ bytes ∈ extractionWrites sys root limits items tree, bytes ≤ limits.maxFileBytes
  total : (extractionWrites sys root limits items tree).sum ≤ limits.maxTotalBytes
  entries : ∀ detected front w progress w', front <+: items →
    Run.foldM (extractEntry sys root limits detected) start front w = (.ok progress, w') →
    (front.filter (counted detected)).length ≤ limits.maxEntries
  refused : ∀ detected front w progress w' item, front ++ [item] <+: items →
    Run.foldM (extractEntry sys root limits detected) start front w = (.ok progress, w') →
    counted detected item → (front.filter (counted detected)).length = limits.maxEntries →
    ∃ note, extractEntry sys root limits detected progress item w' =
      (.error (.resourceLimit (lit "entries") limits.maxEntries note), w')

/-- Under some limits the extraction comes to write the files of a front of the entries. -/
def Reaches (detected : Option Str) (front : Items) : Prop :=
  ∃ limits, ((filesOf detected front).map (·.content)).reverse <:+
    extractionWrites sys root limits items tree

/-- Up to any file that is reached, the streams together yield no more bytes than the headers
declare, and none of them more than the largest header does. -/
def Covered : Prop :=
  ∀ detected, detectArchiveRootPrefix items = .ok detected → ∀ front, front <+: items →
    Reaches sys root items tree detected front →
    ((filesOf detected front).map (·.content)).sum ≤ ((filesOf detected front).map (·.size)).sum ∧
      ∀ file ∈ filesOf detected front, ∃ file' ∈ filesOf detected front, file.content ≤ file'.size

end Limits

/-! ## What is charged -/

/-- Files that can be charged one after the other. -/
def Fits (limits : ExtractionLimits) : Nat → List TarEntry → Prop
  | _, [] => True
  | total, file :: files =>
      file.size ≤ limits.maxFileBytes ∧ total + file.size ≤ limits.maxTotalBytes ∧
        Fits limits (total + file.size) files

theorem fits_iff {limits : ExtractionLimits} {total : Nat} {files : List TarEntry}
    (htotal : total ≤ limits.maxTotalBytes) :
    Fits limits total files ↔ (∀ file ∈ files, file.size ≤ limits.maxFileBytes) ∧
      total + (files.map (·.size)).sum ≤ limits.maxTotalBytes := by
  induction files generalizing total with
  | nil => simpa [Fits] using htotal
  | cons file files ih =>
    simp only [Fits, List.forall_mem_cons, List.map_cons, List.sum_cons, and_assoc]
    constructor
    · rintro ⟨hfile, hsum, hrest⟩
      obtain ⟨hfiles, hsums⟩ := (ih hsum).mp hrest
      exact ⟨hfile, hfiles, by omega⟩
    · rintro ⟨hfile, hfiles, hsums⟩
      have hsum : total + file.size ≤ limits.maxTotalBytes := by omega
      exact ⟨hfile, hsum, (ih hsum).mpr ⟨hfiles, by omega⟩⟩

theorem fits_append {limits : ExtractionLimits} {total : Nat} {files files' : List TarEntry} :
    Fits limits total (files ++ files') ↔ Fits limits total files ∧
      Fits limits (total + (files.map (·.size)).sum) files' := by
  induction files generalizing total with
  | nil => simp [Fits]
  | cons file files ih =>
    rw [List.cons_append, Fits, Fits, ih, List.map_cons, List.sum_cons, Nat.add_assoc]
    simp only [and_assoc]

theorem reserveFile_ok {limits : ExtractionLimits} {progress : Progress} {size : Nat}
    {rel : List Str} {total : Nat} (h : reserveFile limits progress size rel = .ok total) :
    size ≤ limits.maxFileBytes ∧ progress.totalBytes + size ≤ limits.maxTotalBytes ∧
      total = progress.totalBytes + size := by
  unfold reserveFile at h
  split at h
  · cases h
  · split at h
    · cases h
    · cases h
      exact ⟨by omega, by omega, rfl⟩

theorem reserveFile_eq_ok {limits : ExtractionLimits} {progress : Progress} {size : Nat}
    (rel : List Str) (hfile : size ≤ limits.maxFileBytes)
    (htotal : progress.totalBytes + size ≤ limits.maxTotalBytes) :
    reserveFile limits progress size rel = .ok (progress.totalBytes + size) := by
  rw [reserveFile, if_neg (by omega), if_neg (by omega)]

/-! ## What one entry writes -/

/-- The outcome of an entry: it is no file and writes nothing, or it fails before it writes,
or it is a file that fits and its whole stream is written. -/
inductive Charged (limits : ExtractionLimits) (total : Nat) (file : Option TarEntry)
    (before : List Nat) : Except ExtractError Progress → List Nat → Prop
  | other {r : Except ExtractError Progress} (hfile : file = none)
      (hok : ∀ progress, r = .ok progress → progress.totalBytes = total) :
      Charged limits total file before r before
  | refused (e : ExtractError) : Charged limits total file before (.error e) before
  | file {entry : TarEntry} {r : Except ExtractError Progress} (hfile : file = some entry)
      (hfits : entry.size ≤ limits.maxFileBytes ∧ total + entry.size ≤ limits.maxTotalBytes)
      (hok : ∀ progress, r = .ok progress → progress.totalBytes = total + entry.size) :
      Charged limits total file before r (entry.content :: before)

section Entries

variable {sys : System} {root : Loc} {limits : ExtractionLimits} {detected : Option Str}

theorem quiet_onPath {α : Type} {m : Io α} (names : List Str) (h : Quiet m) :
    Quiet (onPath names m) := by
  intro w
  rw [← h w, onPath]
  split
  · rename_i heq
    rw [heq]
  · rename_i heq
    rw [heq]

theorem plain_onPath {α : Type} {m : Io α} (names : List Str) (h : Plain m) :
    Plain (onPath names m) := by
  intro w
  have hw := h w
  unfold onPath
  split
  · rename_i heq
    rw [heq] at hw
    exact hw
  · rename_i heq
    rw [heq] at hw
    exact hw

theorem plain_applyMode (mode : Nat) (rel : List Str) : Plain (applyMode sys root mode rel) :=
  plain_setPermissions _ rel

theorem plain_defaultMode (progress : Progress) (loc : Loc) :
    Plain (defaultMode sys progress loc) := by
  unfold defaultMode
  split
  · exact .pure _
  · exact .recover (.bind (plain_openMode loc) fun _ => .pure _) fun _ => .pure _

theorem plain_adjustMode (default normalized : Nat) (rel : List Str) :
    Plain (adjustMode sys root default normalized rel) := by
  unfold adjustMode
  split
  · exact plain_applyMode normalized rel
  · exact .pure ()

theorem plain_extractDirectory (progress : Progress) (rel : List Str) :
    Plain (extractDirectory sys root progress rel) := by
  apply Plain.bind (plain_onPath _ (plain_createDirAll rel))
  intro _
  apply Plain.bind (plain_onPath _ (.recover (plain_applyMode _ rel) fun _ => .pure ()))
  exact fun _ => .pure progress

theorem plain_ofExcept {ε α : Type} (wrap : ε → ExtractError) (x : Except ε α) :
    Plain (Run.ofExcept wrap x : Extraction α) := by
  cases x with
  | ok a => exact .pure a
  | error e => exact .fail (wrap e)

theorem plain_extractSymlink (progress : Progress) (entry : TarEntry) (raw : Str)
    (rel : List Str) : Plain (extractSymlink sys root progress entry raw rel) := by
  apply Plain.bind (plain_ofExcept _ entry.linkName)
  intro link
  cases link with
  | none => exact .fail _
  | some target =>
    dsimp only
    split
    · apply Plain.bind (plain_onPath _ (plain_createDirAll rel.tail))
      intro _
      apply Plain.bind (plain_onPath _ (plain_symlink target rel))
      exact fun _ => .pure progress
    · exact .fail _

/-- Either the call fails, or all that the stream yields is written. -/
theorem written_writeAll (names : List Str) (loc : Loc) (bytes : Nat) (intact : Bool) (w : World) :
    (∃ e w', onPath names (writeAll sys loc bytes intact) w = (.error e, w') ∧
        written w'.effects = written w.effects) ∨
      ∃ r w', onPath names (writeAll sys loc bytes intact) w = (r, w') ∧
        written w'.effects = bytes :: written w.effects := by
  unfold onPath writeAll call
  by_cases hfails : sys.fails w.calls = true
  · rw [if_pos hfails]
    exact .inl ⟨_, _, rfl, rfl⟩
  · rw [if_neg hfails]
    cases intact with
    | true => exact .inr ⟨_, _, rfl, rfl⟩
    | false => exact .inr ⟨_, _, rfl, rfl⟩

theorem extractFile_charged (progress : Progress) (entry : TarEntry) (rel : List Str) (w : World) :
    Charged limits progress.totalBytes (some entry) (written w.effects)
      (extractFile sys root limits progress entry rel w).1
      (written (extractFile sys root limits progress entry rel w).2.effects) := by
  unfold extractFile
  cases hreserve : reserveFile limits progress entry.size rel with
  | error e => exact .refused e
  | ok total =>
    obtain ⟨hfile, htotal, rfl⟩ := reserveFile_ok hreserve
    have hcharged : ∀ f : Nat → Extraction Progress,
        (Run.ofExcept id (.ok (progress.totalBytes + entry.size)) >>= f) =
          f (progress.totalBytes + entry.size) := fun _ => rfl
    rw [hcharged]
    rcases (plain_onPath _ (plain_createDirAll rel.tail)).quiet.bind_cases _ w with
      ⟨e, w₁, hrun, hw₁⟩ | ⟨_, w₁, hrun, hw₁⟩
    · rw [hrun, hw₁]
      exact .refused e
    rw [hrun, ← hw₁]
    rcases (quiet_onPath _ (quiet_create rel)).bind_cases _ w₁ with
      ⟨e, w₂, hrun, hw₂⟩ | ⟨loc, w₂, hrun, hw₂⟩
    · rw [hrun, hw₂]
      exact .refused e
    rw [hrun, ← hw₂]
    rcases written_writeAll (rel ++ root) loc entry.content entry.intact w₂ with
      ⟨e, w₃, hrun, hw₃⟩ | ⟨r, w₃, hrun, hw₃⟩
    · rw [Run.bind_error hrun, hw₃]
      exact .refused e
    cases r with
    | error e =>
      rw [Run.bind_error hrun, hw₃]
      exact .file rfl ⟨hfile, htotal⟩ nofun
    | ok _ =>
      rw [Run.bind_ok hrun]
      rcases (plain_onPath _ (plain_defaultMode progress loc)).quiet.bind_cases _ w₃ with
        ⟨e, w₄, hrun, hw₄⟩ | ⟨default, w₄, hrun, hw₄⟩
      · rw [hrun, hw₄, hw₃]
        exact .file rfl ⟨hfile, htotal⟩ nofun
      rw [hrun]
      rcases (plain_onPath _
        (plain_adjustMode default (normalizedMode entry.mode) rel)).quiet.bind_cases _ w₄ with ⟨e, w₅, hrun, hw₅⟩ | ⟨_, w₅, hrun, hw₅⟩
      · rw [hrun, hw₅, hw₄, hw₃]
        exact .file rfl ⟨hfile, htotal⟩ nofun
      · rw [hrun]
        refine (hw₅.trans (hw₄.trans hw₃)) ▸ .file rfl ⟨hfile, htotal⟩ fun progress' h => ?_
        cases h
        rfl

/-- The extraction of an entry by its type. -/
def extractAs (sys : System) (root : Loc) (limits : ExtractionLimits) (progress : Progress)
    (entry : TarEntry) (raw : Str) (rel : List Str) : Extraction Progress :=
  match entry.entryType with
  | .regular | .continuous => extractFile sys root limits progress entry rel
  | .directory => extractDirectory sys root progress rel
  | .symlink => extractSymlink sys root progress entry raw rel
  | .xGlobalHeader | .xHeader | .gnuLongName | .gnuLongLink => return progress
  | .other name => Run.fail (.unsupportedEntry name (display rel))

/-- What is left of an entry once its place is known. -/
def extractAt (sys : System) (root : Loc) (limits : ExtractionLimits) (progress : Progress)
    (entry : TarEntry) (raw : Str) (rel : List Str) : Extraction Progress :=
  if rel = [] then return progress
  else if limits.maxEntries < progress.entries + 1 then
    Run.fail (.resourceLimit (lit "entries") limits.maxEntries (pathNote rel))
  else if entry.entryType.isHeader then return { progress with entries := progress.entries + 1 }
  else do
    let progress ← Run.ofExcept id
      (observe { progress with entries := progress.entries + 1 } rel entry.entryType)
    extractAs sys root limits progress entry raw rel

/-- An entry without a place fails whatever the limits are. -/
theorem extractEntry_cases (sys : System) (root : Loc) (detected : Option Str)
    (progress : Progress) (item : Except Str TarEntry) :
    (∃ e, counted detected item = false ∧ ∀ limits,
        extractEntry sys root limits detected progress item = Run.fail e) ∨
      ∃ entry raw rel, item = .ok entry ∧
        (entry.path = .ok raw ∧ relativePath detected raw = .ok rel) ∧
        counted detected item = decide (rel ≠ []) ∧
        ∀ limits, extractEntry sys root limits detected progress item =
          extractAt sys root limits progress entry raw rel := by
  cases item with
  | error reason => exact .inl ⟨corrupt reason, rfl, fun _ => rfl⟩
  | ok entry =>
    cases hraw : entry.path with
    | error reason =>
      refine .inl ⟨invalidPath reason, by rw [counted, hraw], fun limits => ?_⟩
      rw [extractEntry, hraw]
      rfl
    | ok raw =>
      have hplace : ∀ limits, extractEntry sys root limits detected progress (.ok entry) =
          Run.ofExcept (.unsafePath raw) (relativePath detected raw) >>= fun rel =>
            extractAt sys root limits progress entry raw rel := by
        intro limits
        rw [extractEntry, hraw]
        rfl
      cases hrel : relativePath detected raw with
      | error reason =>
        refine .inl ⟨.unsafePath raw reason, ?_, fun limits => ?_⟩
        · simp only [counted, hraw, hrel]
        · rw [hplace, hrel]
          rfl
      | ok rel =>
        refine .inr ⟨entry, raw, rel, rfl, ⟨hraw, hrel⟩, ?_, fun limits => ?_⟩
        · simp only [counted, hraw, hrel]
        · rw [hplace, hrel]
          rfl

theorem keeps_any {α : Type} (m : Extraction α) :
    Run.Keeps (fun _ => True) (fun _ => True) m :=
  fun _ _ => ⟨trivial, fun _ _ => trivial⟩

theorem extractDirectory_returns (progress : Progress) (rel : List Str) :
    Run.Keeps (fun _ => True) (· = progress) (extractDirectory sys root progress rel) :=
  .bind (keeps_any _) fun _ _ => .bind (keeps_any _) fun _ _ => .pure rfl

theorem extractSymlink_returns (progress : Progress) (entry : TarEntry) (raw : Str)
    (rel : List Str) :
    Run.Keeps (fun _ => True) (· = progress) (extractSymlink sys root progress entry raw rel) := by
  apply Run.Keeps.bind (keeps_any _)
  intro link _
  cases link with
  | none => exact .fail
  | some target =>
    dsimp only
    split
    · exact .bind (keeps_any _) fun _ _ => .bind (keeps_any _) fun _ _ => .pure rfl
    · exact .fail

theorem extractFile_entries (progress : Progress) (entry : TarEntry) (rel : List Str) :
    Run.Keeps (fun _ => True) (·.entries = progress.entries)
      (extractFile sys root limits progress entry rel) := by
  apply Run.Keeps.bind (keeps_any _)
  intro total _
  refine .bind (keeps_any _) fun _ _ => .bind (keeps_any _) fun loc _ => ?_
  refine .bind (keeps_any _) fun _ _ => .bind (keeps_any _) fun default _ => ?_
  exact .bind (keeps_any _) fun _ _ => .pure rfl

theorem Charged.quiet {total : Nat} {m : Extraction Progress} (hquiet : Quiet m)
    (hreturns : Run.Keeps (fun _ => True) (·.totalBytes = total) m) (w : World) :
    Charged limits total none (written w.effects) (m w).1 (written (m w).2.effects) := by
  rw [hquiet w]
  exact .other rfl (hreturns w trivial).2

theorem extractAs_charged (progress : Progress) (entry : TarEntry) (raw : Str) (rel : List Str)
    (w : World) :
    Charged limits progress.totalBytes (if entry.entryType.isRegular then some entry else none)
      (written w.effects) (extractAs sys root limits progress entry raw rel w).1
      (written (extractAs sys root limits progress entry raw rel w).2.effects) := by
  unfold extractAs
  cases entry.entryType with
  | regular | continuous => exact extractFile_charged progress entry rel w
  | directory =>
    apply Charged.quiet (plain_extractDirectory progress rel).quiet
    exact .mono (extractDirectory_returns progress rel) fun _ h => h ▸ rfl
  | symlink =>
    apply Charged.quiet (plain_extractSymlink progress entry raw rel).quiet
    exact .mono (extractSymlink_returns progress entry raw rel) fun _ h => h ▸ rfl
  | xGlobalHeader | xHeader | gnuLongName | gnuLongLink => exact .quiet (.pure _) (.pure rfl) w
  | other name => exact .refused _

theorem extractAs_entries (progress : Progress) (entry : TarEntry) (raw : Str) (rel : List Str) :
    Run.Keeps (fun _ => True) (·.entries = progress.entries)
      (extractAs sys root limits progress entry raw rel) := by
  unfold extractAs
  cases entry.entryType with
  | regular | continuous => exact extractFile_entries progress entry rel
  | directory => exact .mono (extractDirectory_returns progress rel) fun _ h => h ▸ rfl
  | symlink => exact .mono (extractSymlink_returns progress entry raw rel) fun _ h => h ▸ rfl
  | xGlobalHeader | xHeader | gnuLongName | gnuLongLink => exact .pure rfl
  | other name => exact .fail

theorem observe_ok {progress progress' : Progress} {rel : List Str} {entryType : EntryType}
    (h : observe progress rel entryType = .ok progress') :
    progress'.entries = progress.entries ∧ progress'.totalBytes = progress.totalBytes := by
  unfold observe at h
  split at h
  · cases h
  · cases h
    exact ⟨rfl, rfl⟩

theorem fileOf_ok {entry : TarEntry} {rel : List Str}
    (hcounted : counted detected (.ok entry) = decide (rel ≠ [])) :
    fileOf detected (.ok entry) =
      if rel ≠ [] ∧ entry.entryType.isRegular then some entry else none := by
  simp only [fileOf, hcounted, Bool.and_eq_true, decide_eq_true_eq]

theorem not_regular_of_header {entryType : EntryType} (h : entryType.isHeader = true) :
    ¬entryType.isRegular = true := by
  cases entryType with
  | regular | continuous | directory | symlink => cases h
  | xGlobalHeader | xHeader | gnuLongName | gnuLongLink => exact nofun
  | other name => cases h

theorem extractEntry_charged (progress : Progress) (item : Except Str TarEntry) (w : World) :
    Charged limits progress.totalBytes (fileOf detected item) (written w.effects)
      (extractEntry sys root limits detected progress item w).1
      (written (extractEntry sys root limits detected progress item w).2.effects) := by
  rcases extractEntry_cases sys root detected progress item with
    ⟨e, _, hrun⟩ | ⟨entry, raw, rel, rfl, _, hcounted, hrun⟩
  · rw [hrun limits]
    exact .refused e
  rw [hrun limits]
  have hfile := fileOf_ok hcounted
  unfold extractAt
  split
  · rename_i hrel
    rw [hfile, if_neg (by simp [hrel])]
    exact .quiet (.pure _) (.pure rfl) w
  · rename_i hrel
    simp only [ne_eq, hrel, not_false_eq_true, true_and] at hfile
    split
    · exact .refused _
    · split
      · rename_i hheader
        rw [hfile, if_neg (not_regular_of_header hheader)]
        refine .other rfl fun progress' h => ?_
        cases h
        rfl
      · rcases Run.ofExcept_bind_cases id (observe { progress with entries := progress.entries + 1 }
          rel entry.entryType) _ w with ⟨e, _, hrun⟩ | ⟨observed, hobserved, hrun⟩
        · rw [hrun]
          exact .refused e
        · rw [hrun, hfile, ← (observe_ok hobserved).2]
          exact extractAs_charged observed entry raw rel w

/-- An entry that is gone through was allowed, and is counted if it has a place below the
root. -/
theorem extractEntry_entries {progress progress' : Progress} {item : Except Str TarEntry}
    {w w' : World}
    (h : extractEntry sys root limits detected progress item w = (.ok progress', w')) :
    progress'.entries = progress.entries + (if counted detected item then 1 else 0) ∧
      (counted detected item = true → progress'.entries ≤ limits.maxEntries) := by
  rcases extractEntry_cases sys root detected progress item with
    ⟨e, _, hrun⟩ | ⟨entry, raw, rel, rfl, _, hcounted, hrun⟩
  · rw [hrun limits] at h
    cases h
  rw [hrun limits] at h
  rw [hcounted]
  unfold extractAt at h
  split at h
  · rename_i hrel
    cases h
    simp [hrel]
  · rename_i hrel
    simp only [ne_eq, hrel, not_false_eq_true, decide_true, if_true]
    split at h
    · cases h
    · rename_i hmax
      suffices hnext : progress'.entries = progress.entries + 1 by
        exact ⟨hnext, fun _ => by omega⟩
      split at h
      · cases h
        rfl
      · obtain ⟨observed, w₁, hobserve, hextract⟩ := Run.bind_eq_ok.mp h
        cases hobserved : observe { progress with entries := progress.entries + 1 } rel
            entry.entryType with
        | error e =>
          rw [hobserved] at hobserve
          cases hobserve
        | ok observed' =>
          rw [hobserved] at hobserve
          cases hobserve
          have hkept := (extractAs_entries observed entry raw rel w trivial).2 progress'
            (by rw [hextract])
          exact hkept.trans (observe_ok hobserved).1

/-- At the limit a further entry is refused before anything is done for it. -/
theorem extractEntry_refused {progress : Progress} {item : Except Str TarEntry}
    (hcounted : counted detected item = true) (hmax : progress.entries = limits.maxEntries)
    (w : World) :
    ∃ note, extractEntry sys root limits detected progress item w =
      (.error (.resourceLimit (lit "entries") limits.maxEntries note), w) := by
  rcases extractEntry_cases sys root detected progress item with
    ⟨e, hnot, _⟩ | ⟨entry, raw, rel, rfl, _, hplace, hrun⟩
  · rw [hnot] at hcounted
    cases hcounted
  · rw [hplace, decide_eq_true_eq] at hcounted
    rw [hrun limits, extractAt, if_neg hcounted, if_pos (by omega)]
    exact ⟨_, rfl⟩

/-- Limits that admit an entry's charge lead to the same outcome. -/
theorem extractEntry_congr {limits' : ExtractionLimits} {progress : Progress}
    {item : Except Str TarEntry} (hmax : limits.maxEntries = limits'.maxEntries)
    (h : Fits limits progress.totalBytes (fileOf detected item).toList)
    (h' : Fits limits' progress.totalBytes (fileOf detected item).toList) (w : World) :
    extractEntry sys root limits detected progress item w =
      extractEntry sys root limits' detected progress item w := by
  rcases extractEntry_cases sys root detected progress item with
    ⟨e, _, hrun⟩ | ⟨entry, raw, rel, rfl, _, hcounted, hrun⟩
  · rw [hrun limits, hrun limits']
  rw [hrun limits, hrun limits']
  have hfile := fileOf_ok hcounted
  unfold extractAt
  rw [hmax]
  split
  · rfl
  · rename_i hrel
    simp only [ne_eq, hrel, not_false_eq_true, true_and] at hfile
    split
    · rfl
    · split
      · rfl
      · cases hobserved : observe { progress with entries := progress.entries + 1 } rel
            entry.entryType with
        | error e => rfl
        | ok observed =>
          -- only the charge of a file looks at the limits
          suffices hfiles : entry.entryType.isRegular = true →
              extractFile sys root limits observed entry rel =
                extractFile sys root limits' observed entry rel by
            show extractAs sys root limits observed entry raw rel w =
              extractAs sys root limits' observed entry raw rel w
            unfold extractAs
            cases htype : entry.entryType with
            | regular | continuous => exact congrFun (hfiles (by rw [htype]; rfl)) w
            | _ => rfl
          intro hregular
          rw [hfile, if_pos hregular, Option.toList_some, Fits] at h h'
          rw [← (observe_ok hobserved).2] at h h'
          unfold extractFile
          rw [reserveFile_eq_ok rel h.1 h.2.1, reserveFile_eq_ok rel h'.1 h'.2.1]

/-! ## The run over the entries -/

theorem filesOf_cons (item : Except Str TarEntry) (items : Items) :
    filesOf detected (item :: items) = (fileOf detected item).toList ++ filesOf detected items := by
  rw [filesOf, List.filterMap_cons]
  cases fileOf detected item <;> rfl

/-- What the entries write: the streams of the files of a front of them, all of which fit.
A run that succeeds writes them all. -/
theorem loop_writes (progress : Progress) (items : Items) (w : World) :
    ∃ front, front <+: items ∧ Fits limits progress.totalBytes (filesOf detected front) ∧
      written (Run.foldM (extractEntry sys root limits detected) progress items w).2.effects =
        ((filesOf detected front).map (·.content)).reverse ++ written w.effects ∧
      ∀ progress', (Run.foldM (extractEntry sys root limits detected) progress items w).1 =
        .ok progress' → front = items := by
  induction items generalizing progress w with
  | nil => exact ⟨[], List.prefix_rfl, trivial, rfl, fun _ _ => rfl⟩
  | cons item items ih =>
    have hstep := @extractEntry_charged sys root limits detected progress item w
    rw [Run.foldM]
    rcases hrun : extractEntry sys root limits detected progress item w with ⟨e | progress', w₁⟩
    · -- the run ends here, maybe in the middle of a file
      rw [Run.bind_error hrun]
      rw [hrun] at hstep
      generalize written w₁.effects = ws at hstep ⊢
      cases hstep with
      | other hfile hok => exact ⟨[], List.nil_prefix, trivial, rfl, fun _ heq => by cases heq⟩
      | refused => exact ⟨[], List.nil_prefix, trivial, rfl, fun _ heq => by cases heq⟩
      | file hfile hfits hok =>
        refine ⟨[item], (List.prefix_cons_inj item).mpr List.nil_prefix, ?_, ?_, fun _ heq => by cases heq⟩
        · rw [filesOf_cons, hfile]
          exact ⟨hfits.1, hfits.2, trivial⟩
        · rw [filesOf_cons, hfile]
          rfl
    · rw [Run.bind_ok hrun]
      obtain ⟨front, hfront, hfits', hwritten, hall⟩ := ih progress' w₁
      have hall' : ∀ progress'', (Run.foldM (extractEntry sys root limits detected) progress' items
          w₁).1 = .ok progress'' → item :: front = item :: items :=
        fun progress'' h => congrArg (item :: ·) (hall progress'' h)
      refine ⟨item :: front, (List.prefix_cons_inj item).mpr hfront, ?_⟩
      rw [hrun] at hstep
      generalize written w₁.effects = ws at hstep hwritten
      rw [filesOf_cons]
      cases hstep with
      | other hfile hok =>
        rw [hok progress' rfl] at hfits'
        rw [hfile]
        exact ⟨hfits', hwritten, hall'⟩
      | file hfile hfits hok =>
        rw [hok progress' rfl] at hfits'
        rw [hfile]
        refine ⟨⟨hfits.1, hfits.2, hfits'⟩, ?_, hall'⟩
        rw [hwritten]
        simp

/-- Limits that admit all charges of the entries lead to the same run. -/
theorem loop_congr {limits' : ExtractionLimits} (hmax : limits.maxEntries = limits'.maxEntries)
    {progress : Progress} {items : Items}
    (h : Fits limits progress.totalBytes (filesOf detected items))
    (h' : Fits limits' progress.totalBytes (filesOf detected items)) (w : World) :
    Run.foldM (extractEntry sys root limits detected) progress items w =
      Run.foldM (extractEntry sys root limits' detected) progress items w := by
  induction items generalizing progress w with
  | nil => rfl
  | cons item items ih =>
    rw [filesOf_cons] at h h'
    have hstep := @extractEntry_charged sys root limits detected progress item w
    have hcongr := @extractEntry_congr sys root limits detected limits' progress item hmax
      (fits_append.mp h).1 (fits_append.mp h').1 w
    rw [Run.foldM, Run.foldM]
    rcases hrun : extractEntry sys root limits detected progress item w with ⟨e | progress', w₁⟩
    · rw [Run.bind_error hrun, Run.bind_error (hcongr ▸ hrun)]
    · rw [Run.bind_ok hrun, Run.bind_ok (hcongr ▸ hrun)]
      rw [hrun] at hstep
      have htotal : progress'.totalBytes = progress.totalBytes +
          ((fileOf detected item).toList.map (·.size)).sum := by
        generalize written w₁.effects = ws at hstep
        cases hstep with
        | other hfile hok => rw [hfile, hok progress' rfl]; rfl
        | file hfile _ hok => rw [hfile, hok progress' rfl]; rfl
      have hrest := (fits_append.mp h).2
      have hrest' := (fits_append.mp h').2
      rw [← htotal] at hrest hrest'
      exact ih hrest hrest' w₁

theorem loop_entries {progress progress' : Progress} {items : Items} {w w' : World}
    (h : Run.foldM (extractEntry sys root limits detected) progress items w = (.ok progress', w'))
    (hallowed : progress.entries ≤ limits.maxEntries) :
    progress'.entries = progress.entries + (items.filter (counted detected)).length ∧
      progress'.entries ≤ limits.maxEntries := by
  induction items generalizing progress w with
  | nil =>
    cases h
    exact ⟨rfl, hallowed⟩
  | cons item items ih =>
    obtain ⟨progress₁, w₁, hrun, hrest⟩ := Run.bind_eq_ok.mp h
    obtain ⟨hcount, hmax⟩ := extractEntry_entries hrun
    cases hcounted : counted detected item with
    | true =>
      obtain ⟨heq, hle⟩ := ih hrest (hmax hcounted)
      rw [hcounted, if_pos rfl] at hcount
      rw [List.filter_cons_of_pos hcounted, List.length_cons]
      exact ⟨by omega, hle⟩
    | false =>
      rw [hcounted, if_neg nofun] at hcount
      obtain ⟨heq, hle⟩ := ih hrest (by omega)
      rw [List.filter_cons_of_neg (by simp [hcounted])]
      exact ⟨by omega, hle⟩

/-- What the front of the entries writes stays written. -/
theorem loop_append_writes (progress : Progress) (front rest : Items) (w : World) :
    written (Run.foldM (extractEntry sys root limits detected) progress front w).2.effects <:+
      written (Run.foldM (extractEntry sys root limits detected) progress (front ++ rest) w).2.effects
    := by
  rw [Run.foldM_append]
  rcases hrun : Run.foldM (extractEntry sys root limits detected) progress front w with
    ⟨e | progress', w'⟩
  · rw [Run.bind_error hrun]
  · rw [Run.bind_ok hrun]
    obtain ⟨front', _, _, hwritten, _⟩ :=
      @loop_writes sys root limits detected progress' rest w'
    rw [hwritten]
    exact List.suffix_append _ _

theorem quiet_openArchive : Quiet (openArchive sys) := by
  intro w
  unfold openArchive call
  split <;> rename_i heq <;> split at heq <;> cases heq <;> rfl

/-- Before the entries are gone through, the limits do not matter and nothing is written. -/
theorem extractWithLimits_cases (sys : System) (root : Loc) (items : Items) (w : World) :
    (∀ limits, written (extractWithLimits sys root limits items w).2.effects = written w.effects) ∨
      ∃ detected w', detectArchiveRootPrefix items = .ok detected ∧
        written w'.effects = written w.effects ∧
        ∀ limits, (extractWithLimits sys root limits items w).2 =
          (Run.foldM (extractEntry sys root limits detected) start items w').2 := by
  unfold extractWithLimits
  have hw₁ := @quiet_openArchive sys w
  rcases hopen : openArchive sys w with ⟨e | _, w₁⟩
  · rw [hopen] at hw₁
    refine .inl fun limits => ?_
    rw [Run.bind_error hopen, hw₁]
  rw [hopen] at hw₁
  cases hdetected : detectArchiveRootPrefix items with
  | error e =>
    refine .inl fun limits => ?_
    rw [Run.bind_ok hopen]
    exact hw₁
  | ok detected =>
    have hw₂ := @quiet_openArchive sys w₁
    rcases hopen' : openArchive sys w₁ with ⟨e | _, w₂⟩
    · rw [hopen'] at hw₂
      refine .inl fun limits => ?_
      rw [Run.bind_ok hopen]
      show written ((openArchive sys >>= _) w₁).2.effects = _
      rw [Run.bind_error hopen', hw₂, hw₁]
    · rw [hopen'] at hw₂
      refine .inr ⟨detected, w₂, rfl, hw₂.trans hw₁, fun limits => ?_⟩
      rw [Run.bind_ok hopen]
      show ((openArchive sys >>= _) w₁).2 = _
      rw [Run.bind_ok hopen']
      exact Run.bind_pure_state _ _ w₂

end Entries

/-! ## The limits -/

section Main

variable {sys : System} {root : Loc} {items : Items} {tree : Tree}

theorem filesOf_isPrefix_mono {detected : Option Str} {front items : Items} (h : front <+: items) :
    filesOf detected front <+: filesOf detected items :=
  h.filterMap _

theorem extraction_writes (limits : ExtractionLimits) :
    extractionWrites sys root limits items tree = [] ∨
      ∃ detected front, detectArchiveRootPrefix items = .ok detected ∧ front <+: items ∧
        Fits limits 0 (filesOf detected front) ∧ extractionWrites sys root limits items tree =
          ((filesOf detected front).map (·.content)).reverse := by
  rcases extractWithLimits_cases sys root items ⟨tree, [], 0⟩ with
    hnone | ⟨detected, w, hdetected, hw, hrun⟩
  · exact .inl (hnone limits)
  · obtain ⟨front, hfront, hfits, hwritten, _⟩ :=
      @loop_writes sys root limits detected start items w
    refine .inr ⟨detected, front, hdetected, hfront, hfits, ?_⟩
    rw [extractionWrites, hrun limits, hwritten, hw]
    exact List.append_nil _

theorem eq_of_prefix_of_length {α : Type} {xs ys : List α} (h : xs <+: ys)
    (hlength : ys.length ≤ xs.length) : xs = ys :=
  h.eq_of_length (Nat.le_antisymm h.length_le hlength)

/-- When the files of a front are written, the run over this front has written them. -/
theorem loop_of_reached {detected : Option Str} {limits : ExtractionLimits} {front rest : Items}
    {w : World} (hw : written w.effects = [])
    (hreached : ((filesOf detected front).map (·.content)).reverse <:+ written (Run.foldM
      (extractEntry sys root limits detected) start (front ++ rest) w).2.effects) :
    Fits limits 0 (filesOf detected front) ∧
      written (Run.foldM (extractEntry sys root limits detected) start front w).2.effects =
        ((filesOf detected front).map (·.content)).reverse := by
  obtain ⟨front₁, hfront₁, hfits₁, hwritten₁, _⟩ :=
    @loop_writes sys root limits detected start (front ++ rest) w
  obtain ⟨front₂, hfront₂, _, hwritten₂, hall₂⟩ :=
    @loop_writes sys root limits detected start front w
  rw [hw, List.append_nil] at hwritten₁ hwritten₂
  have hlength : (filesOf detected front).length ≤ (filesOf detected front₁).length := by
    have hle := hreached.length_le
    rw [hwritten₁] at hle
    simpa using hle
  have hfiles : filesOf detected front <+: filesOf detected front₁ :=
    List.prefix_of_prefix_length_le (filesOf_isPrefix_mono (List.prefix_append front rest))
      (filesOf_isPrefix_mono hfront₁) hlength
  refine ⟨?_, ?_⟩
  · obtain ⟨files, hfiles⟩ := hfiles
    rw [← hfiles] at hfits₁
    exact (fits_append.mp hfits₁).1
  · rw [hwritten₂]
    suffices hsame : filesOf detected front₂ = filesOf detected front by rw [hsame]
    rcases hrun : Run.foldM (extractEntry sys root limits detected) start front w with
      ⟨e | progress, w'⟩
    · -- a run that fails in the front writes nothing more behind it
      rw [Run.foldM_append, Run.bind_error hrun] at hwritten₁
      rw [hrun] at hwritten₂
      have hcontents := congrArg List.length (hwritten₂.symm.trans hwritten₁)
      simp only [List.length_reverse, List.length_map] at hcontents
      exact eq_of_prefix_of_length (filesOf_isPrefix_mono hfront₂) (by omega)
    · rw [hall₂ progress (by rw [hrun])]

/-- Whatever limits admit the charges of the files that are reached, these are written. -/
theorem writes_of_fits {detected : Option Str} {front : Items} {limits limits' : ExtractionLimits}
    (hdetected : detectArchiveRootPrefix items = .ok detected) (hfront : front <+: items)
    (hreached : ((filesOf detected front).map (·.content)).reverse <:+
      extractionWrites sys root limits items tree)
    (hfits' : Fits limits' 0 (filesOf detected front))
    (hmax : limits.maxEntries = limits'.maxEntries) :
    ((filesOf detected front).map (·.content)).reverse <:+
      extractionWrites sys root limits' items tree := by
  rcases extractWithLimits_cases sys root items ⟨tree, [], 0⟩ with
    hnone | ⟨detected', w, hdetected', hw, hrun⟩
  · have hnone' : extractionWrites sys root limits items tree = [] := hnone limits
    rw [hnone', List.suffix_nil] at hreached
    rw [hreached]
    exact List.nil_suffix
  cases hdetected.symm.trans hdetected'
  obtain ⟨rest, rfl⟩ := hfront
  have hempty : written w.effects = [] := hw
  rw [extractionWrites, hrun limits] at hreached
  obtain ⟨hfits, hwritten⟩ := loop_of_reached hempty hreached
  rw [extractionWrites, hrun limits', ← hwritten, loop_congr hmax hfits hfits']
  exact loop_append_writes start front rest w

theorem withinLimits_entries (limits : ExtractionLimits) {detected : Option Str} {front : Items}
    {w w' : World} {progress : Progress}
    (h : Run.foldM (extractEntry sys root limits detected) start front w = (.ok progress, w')) :
    progress.entries = (front.filter (counted detected)).length ∧
      (front.filter (counted detected)).length ≤ limits.maxEntries := by
  obtain ⟨hcount, hmax⟩ := loop_entries h (Nat.zero_le _)
  rw [start, Nat.zero_add] at hcount
  exact ⟨hcount, hcount ▸ hmax⟩

/-- The limits hold of every extraction of an archive, whatever they are, exactly when up to
each file that is reached the streams are covered by the sizes. -/
theorem extractWithLimits_within_iff :
    (∀ limits, WithinLimits sys root limits items tree) ↔ Covered sys root items tree := by
  constructor
  · rintro hall detected hdetected front hfront ⟨limits, hreached⟩
    have hsizes : ∀ file ∈ filesOf detected front,
        file.size ≤ ((filesOf detected front).map (·.size)).sum := fun file hfile =>
      List.single_le_sum (fun _ _ => Nat.zero_le _) _ (List.mem_map_of_mem hfile)
    constructor
    · -- under limits that the headers just meet
      have hfits : Fits ⟨((filesOf detected front).map (·.size)).sum,
          ((filesOf detected front).map (·.size)).sum, limits.maxEntries⟩ 0
          (filesOf detected front) :=
        (fits_iff (Nat.zero_le _)).mpr ⟨hsizes, (Nat.zero_add _).le⟩
      have hwrites := writes_of_fits hdetected hfront hreached hfits rfl
      calc ((filesOf detected front).map (·.content)).sum
          = ((filesOf detected front).map (·.content)).reverse.sum := (List.sum_reverse _).symm
        _ ≤ _ := hwrites.sublist.sum_le_sum fun _ _ => Nat.zero_le _
        _ ≤ _ := (hall _).total
    · intro file hfile
      by_contra hlonger
      push Not at hlonger
      -- a limit right below the stream admits all the headers
      have hfits : Fits ⟨((filesOf detected front).map (·.size)).sum, file.content - 1,
          limits.maxEntries⟩ 0 (filesOf detected front) := by
        refine (fits_iff (Nat.zero_le _)).mpr ⟨fun file' hfile' => ?_, (Nat.zero_add _).le⟩
        have hlt := hlonger file' hfile'
        show file'.size ≤ file.content - 1
        omega
      have hwrites := writes_of_fits hdetected hfront hreached hfits rfl
      have hmem : file.content ∈ ((filesOf detected front).map (·.content)).reverse :=
        List.mem_reverse.mpr (List.mem_map_of_mem hfile)
      have hle : file.content ≤ file.content - 1 := (hall _).file _ (hwrites.subset hmem)
      have hlt := hlonger file hfile
      omega
  · intro hcovered limits
    have hentries := @withinLimits_entries sys root limits
    have hrefused : ∀ detected front w progress w' item, front ++ [item] <+: items →
        Run.foldM (extractEntry sys root limits detected) start front w = (.ok progress, w') →
        counted detected item → (front.filter (counted detected)).length = limits.maxEntries →
        ∃ note, extractEntry sys root limits detected progress item w' =
          (.error (.resourceLimit (lit "entries") limits.maxEntries note), w') := by
      intro detected front w progress w' item _ hrun hcounted hlength
      exact extractEntry_refused hcounted ((hentries hrun).1.trans hlength) w'
    rcases @extraction_writes sys root items tree limits with
      hnone | ⟨detected, front, hdetected, hfront, hfits, hwritten⟩
    · refine ⟨?_, ?_, fun _ _ _ _ _ _ hrun => (hentries hrun).2, hrefused⟩
      · rw [hnone]
        exact nofun
      · rw [hnone]
        exact Nat.zero_le _
    · obtain ⟨hsum, hfiles⟩ := hcovered detected hdetected front hfront
        ⟨limits, hwritten ▸ List.suffix_rfl⟩
      obtain ⟨hsizes, htotal⟩ := (fits_iff (Nat.zero_le _)).mp hfits
      refine ⟨?_, ?_, fun _ _ _ _ _ _ hrun => (hentries hrun).2, hrefused⟩
      · intro bytes hbytes
        rw [hwritten, List.mem_reverse, List.mem_map] at hbytes
        obtain ⟨file, hfile, rfl⟩ := hbytes
        obtain ⟨file', hfile', hle⟩ := hfiles file hfile
        exact hle.trans (hsizes file' hfile')
      · rw [hwritten, List.sum_reverse]
        omega

/-- Streams that keep to their headers' sizes are covered. -/
theorem covered_of_content_le
    (h : ∀ entry, .ok entry ∈ items → entry.entryType.isRegular → entry.content ≤ entry.size) :
    Covered sys root items tree := by
  intro detected _ front hfront _
  have hfiles : ∀ file ∈ filesOf detected front, file.content ≤ file.size := by
    intro file hfile
    obtain ⟨item, hitem, hfileOf⟩ := List.mem_filterMap.mp hfile
    cases item with
    | error reason => cases hfileOf
    | ok entry =>
      rw [fileOf] at hfileOf
      split at hfileOf
      · rename_i hcond
        cases hfileOf
        exact h _ (hfront.subset hitem) (Bool.and_eq_true_iff.mp hcond).2
      · cases hfileOf
  exact ⟨List.sum_le_sum hfiles, fun file hfile => ⟨file, hfile, hfiles file hfile⟩⟩

end Main

/-- A file whose header declares one byte and whose pax record a hundred. -/
def paxFile : Except Str TarEntry :=
  .ok ⟨.ok (lit "package/x.js"), .regular, 1, 0o644, .ok none, 100, true⟩

theorem extractWithLimits_not_within :
    ¬ ∀ (sys : System) (root : Loc) (limits : ExtractionLimits) (items : Items) (tree : Tree),
      WithinLimits sys root limits items tree := by
  intro hall
  have hwithin := hall plainSystem [lit "image"] ⟨10, 10, 10⟩ [paxFile] (imageTree [lit "image"])
  have hwritten : 100 ∈ extractionWrites plainSystem [lit "image"] ⟨10, 10, 10⟩ [paxFile]
      (imageTree [lit "image"]) := by
    decide +kernel
  exact absurd (hwithin.file 100 hwritten) (by decide)

end Archive
end Bpm
