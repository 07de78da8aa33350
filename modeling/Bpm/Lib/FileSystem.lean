import Bpm.Lib.FileTree
import Bpm.Lib.Run

/-!
# File system calls

The calls that create and change files, over a tree with symbolic links.  Every
change is recorded with the place it happens at.  Any call may fail for reasons
that the model does not know.  Calls on paths of plain names below a directory
change nothing outside it as long as the links below it are tame.
-/

namespace Bpm
namespace FileSystem

open FileTree

inductive Errno
  | notFound | alreadyExists | other
deriving DecidableEq

inductive Effect
  | mkdir (loc : Loc)
  | create (loc : Loc)
  | truncate (loc : Loc)
  | write (loc : Loc) (bytes : Nat)
  | chmod (loc : Loc) (mode : Nat)
  | symlink (loc : Loc) (target : Str)
deriving DecidableEq

/-- The object that is created or changed. -/
def Effect.loc : Effect → Loc
  | mkdir loc | create loc | truncate loc | write loc _ | chmod loc _ | symlink loc _ => loc

/-- How many links a lookup follows, the modes of new objects, and which calls fail. -/
structure System where
  maxLinks : Nat
  dirMode : Nat
  fileMode : Nat
  fails : Nat → Bool

structure World where
  tree : Tree
  effects : List Effect
  calls : Nat

abbrev Io := Run Errno World

def call {α : Type} (sys : System) (body : World → Except Errno α × World) : Io α := fun w =>
  if sys.fails w.calls then (.error .other, { w with calls := w.calls + 1 })
  else body { w with calls := w.calls + 1 }

namespace World

def place (w : World) (loc : Loc) (node : Node) (effect : Effect) : World :=
  { w with tree := Function.update w.tree loc (some node), effects := effect :: w.effects }

def note (w : World) (effect : Effect) : World := { w with effects := effect :: w.effects }

def isDir (w : World) (loc : Loc) : Bool :=
  match w.tree loc with
  | some (.dir _) => true
  | _ => false

end World

variable (sys : System) (base : Loc)

/-- Look up names, innermost first, below `base`. -/
def lookup (w : World) (names : List Str) : Outcome :=
  walk w.tree sys.maxLinks base (names.reverse.map .normal)

/-- Make a new object of a name in a directory. -/
def addEntry (parent : List Str) (name : Str) (node : Node) (effect : Loc → Effect) : Io Unit :=
  call sys fun w =>
    match lookup sys base w parent with
    | .found loc =>
        if !w.isDir loc then (.error .other, w)
        else if (w.tree (name :: loc)).isSome then (.error .alreadyExists, w)
        else (.ok (), w.place (name :: loc) node (effect (name :: loc)))
    | .missing _ _ _ => (.error .notFound, w)
    | .notDirectory _ | .tooManyLinks => (.error .other, w)

/-- `base` is there already. -/
def mkdir : List Str → Io Unit
  | [] => call sys fun w => (.error .alreadyExists, w)
  | name :: parent => addEntry sys base parent name (.dir sys.dirMode) .mkdir

def symlink (target : Str) : List Str → Io Unit
  | [] => call sys fun w => (.error .alreadyExists, w)
  | name :: parent => addEntry sys base parent name (.link target) (.symlink · target)

/-- Whether a directory is seen at a path. -/
def isDir (names : List Str) : Io Bool :=
  Run.recover
    (call sys fun w =>
      match lookup sys base w names with
      | .found loc => (.ok (w.isDir loc), w)
      | _ => (.ok false, w))
    fun _ => pure false

def orDir (names : List Str) (e : Errno) : Io Unit := do
  if ← isDir sys base names then pure () else Run.fail e

/-- A missing parent is created first; a failure counts only if no directory is there. -/
def createDirAll : List Str → Io Unit
  | [] => Run.recover (mkdir sys base []) (orDir sys base [])
  | name :: parent =>
      Run.recover (mkdir sys base (name :: parent)) fun e =>
        if e = .notFound then do
          createDirAll parent
          Run.recover (mkdir sys base (name :: parent)) (orDir sys base (name :: parent))
        else orDir sys base (name :: parent) e

/-- Open a file for writing: a file that is there is truncated, and a link that leads to a
missing name makes the file there. -/
def create (names : List Str) : Io Loc :=
  call sys fun w =>
    match lookup sys base w names with
    | .found loc =>
        match w.tree loc with
        | some (.file _) => (.ok loc, w.note (.truncate loc))
        | _ => (.error .other, w)
    | .missing loc name [] =>
        (.ok (name :: loc), w.place (name :: loc) (.file sys.fileMode) (.create (name :: loc)))
    | .missing _ _ _ => (.error .notFound, w)
    | .notDirectory _ | .tooManyLinks => (.error .other, w)

/-- Write to an open file the bytes that can be read; `intact` says whether these are all. -/
def writeAll (loc : Loc) (bytes : Nat) (intact : Bool) : Io Unit :=
  call sys fun w => (if intact then .ok () else .error .other, w.note (.write loc bytes))

/-- The mode of an open file. -/
def openMode (loc : Loc) : Io Nat :=
  call sys fun w =>
    match w.tree loc with
    | some (.file mode) | some (.dir mode) => (.ok mode, w)
    | _ => (.error .other, w)

def setPermissions (mode : Nat) (names : List Str) : Io Unit :=
  call sys fun w =>
    match lookup sys base w names with
    | .found loc =>
        match w.tree loc with
        | some (.file _) => (.ok (), w.place loc (.file mode) (.chmod loc mode))
        | some (.dir _) => (.ok (), w.place loc (.dir mode) (.chmod loc mode))
        | _ => (.error .other, w)
    | .missing _ _ _ => (.error .notFound, w)
    | .notDirectory _ | .tooManyLinks => (.error .other, w)

/-! ## What is written -/

/-- The lengths of the writes among effects, the latest first. -/
def written (effects : List Effect) : List Nat :=
  effects.filterMap fun
    | .write _ bytes => some bytes
    | _ => none

/-- A computation that writes nothing. -/
def Quiet {ε α : Type} (m : Run ε World α) : Prop :=
  ∀ w, written (m w).2.effects = written w.effects

section Quiet

variable {sys base} {ε α β : Type}

theorem Quiet.pure (a : α) : Quiet (Pure.pure a : Run ε World α) := fun _ => rfl

/-- A sequence that starts quietly fails before anything is written, or goes on where nothing
has been. -/
theorem Quiet.bind_cases {m : Run ε World α} (hm : Quiet m) (f : α → Run ε World β) (w : World) :
    (∃ e w', (m >>= f) w = (.error e, w') ∧ written w'.effects = written w.effects) ∨
      ∃ a w', (m >>= f) w = f a w' ∧ written w'.effects = written w.effects := by
  have hw := hm w
  rcases hres : m w with ⟨e | a, w'⟩
  · rw [hres] at hw
    exact .inl ⟨e, w', Run.bind_error hres, hw⟩
  · rw [hres] at hw
    exact .inr ⟨a, w', Run.bind_ok hres, hw⟩

theorem quiet_call {body : World → Except Errno α × World} (h : Quiet body) :
    Quiet (call sys body) := by
  intro w
  unfold call
  split
  · rfl
  · exact h _

theorem quiet_create (names : List Str) : Quiet (create sys base names) := by
  apply quiet_call
  intro w
  dsimp only
  split
  · split <;> rfl
  · rfl
  · rfl
  · rfl
  · rfl

/-! Effects that neither make nor change the contents of a file. -/

def Effect.plain : Effect → Bool
  | mkdir _ | chmod _ _ | symlink _ _ => true
  | create _ | truncate _ | write _ _ => false

/-- A computation with only plain effects. -/
def Plain {ε α : Type} (m : Run ε World α) : Prop :=
  ∀ w, ∃ new, (m w).2.effects = new ++ w.effects ∧ ∀ e ∈ new, e.plain = true

theorem written_of_plain {new : List Effect} (h : ∀ e ∈ new, e.plain = true) : written new = [] := by
  apply List.filterMap_eq_nil_iff.mpr
  intro e he
  cases e with
  | write loc bytes => cases h _ he
  | _ => rfl

theorem Plain.quiet {m : Run ε World α} (h : Plain m) : Quiet m := by
  intro w
  obtain ⟨new, heffects, hplain⟩ := h w
  rw [heffects, written, List.filterMap_append]
  exact congrArg (· ++ written w.effects) (written_of_plain hplain)

theorem Plain.of_eq {m : Run ε World α} (h : Plain m) {w w' : World} {r : Except ε α}
    (hrun : m w = (r, w')) : ∃ new, w'.effects = new ++ w.effects ∧ ∀ e ∈ new, e.plain = true := by
  have hw := h w
  rwa [hrun] at hw

theorem Plain.pure (a : α) : Plain (Pure.pure a : Run ε World α) := fun _ => ⟨[], rfl, nofun⟩

theorem Plain.fail (e : ε) : Plain (Run.fail e : Run ε World α) := fun _ => ⟨[], rfl, nofun⟩

/-- Plain effects after plain effects. -/
theorem plain_append {effects effects' effects'' : List Effect}
    (h : ∃ new, effects' = new ++ effects ∧ ∀ e ∈ new, e.plain = true)
    (h' : ∃ new, effects'' = new ++ effects' ∧ ∀ e ∈ new, e.plain = true) :
    ∃ new, effects'' = new ++ effects ∧ ∀ e ∈ new, e.plain = true := by
  obtain ⟨new, rfl, hnew⟩ := h
  obtain ⟨new', rfl, hnew'⟩ := h'
  refine ⟨new' ++ new, by simp, fun e he => ?_⟩
  exact (List.mem_append.mp he).elim (hnew' e) (hnew e)

theorem Plain.bind {m : Run ε World α} {f : α → Run ε World β} (hm : Plain m)
    (hf : ∀ a, Plain (f a)) : Plain (m >>= f) := by
  intro w
  rw [Run.bind_apply]
  have hw := hm w
  rcases hres : m w with ⟨_ | a, w'⟩
  · rw [hres] at hw
    exact hw
  · rw [hres] at hw
    exact plain_append hw (hf a w')

theorem Plain.recover {m : Run ε World α} {handler : ε → Run ε World α} (hm : Plain m)
    (hf : ∀ e, Plain (handler e)) : Plain (Run.recover m handler) := by
  intro w
  unfold Run.recover
  have hw := hm w
  rcases hres : m w with ⟨e | a, w'⟩
  · rw [hres] at hw
    exact plain_append hw (hf e w')
  · rw [hres] at hw
    exact hw

theorem plain_call {body : World → Except Errno α × World} (h : Plain body) :
    Plain (call sys body) := by
  intro w
  unfold call
  split
  · exact ⟨[], rfl, nofun⟩
  · exact h _

theorem plain_same {w : World} {effects : List Effect} (h : effects = w.effects) :
    ∃ new, effects = new ++ w.effects ∧ ∀ e ∈ new, e.plain = true :=
  ⟨[], h, nofun⟩

theorem plain_place {w : World} {loc : Loc} {node : Node} {effect : Effect}
    (h : effect.plain = true) :
    ∃ new, (w.place loc node effect).effects = new ++ w.effects ∧ ∀ e ∈ new, e.plain = true :=
  ⟨[effect], rfl, by simpa using h⟩

theorem plain_addEntry {parent : List Str} {name : Str} {node : Node} {effect : Loc → Effect}
    (h : ∀ loc, (effect loc).plain = true) :
    Plain (addEntry sys base parent name node effect) := by
  apply plain_call
  intro w
  dsimp only
  split
  · split
    · exact plain_same rfl
    · split
      · exact plain_same rfl
      · exact plain_place (h _)
  · exact plain_same rfl
  · exact plain_same rfl
  · exact plain_same rfl

theorem plain_mkdir (names : List Str) : Plain (mkdir sys base names) := by
  cases names with
  | nil => exact plain_call fun _ => plain_same rfl
  | cons name parent => exact plain_addEntry fun _ => rfl

theorem plain_symlink (target : Str) (names : List Str) :
    Plain (symlink sys base target names) := by
  cases names with
  | nil => exact plain_call fun _ => plain_same rfl
  | cons name parent => exact plain_addEntry fun _ => rfl

theorem plain_orDir (names : List Str) (e : Errno) : Plain (orDir sys base names e) := by
  have hisDir : Plain (isDir sys base names) := by
    refine .recover (plain_call fun w => ?_) fun _ => .pure false
    split <;> exact plain_same rfl
  refine .bind hisDir fun found => ?_
  split
  · exact .pure ()
  · exact .fail e

theorem plain_createDirAll (names : List Str) : Plain (createDirAll sys base names) := by
  induction names with
  | nil => exact .recover (plain_mkdir []) (plain_orDir [])
  | cons name parent ih =>
    refine .recover (plain_mkdir _) fun e => ?_
    split
    · exact .bind ih fun _ => .recover (plain_mkdir _) (plain_orDir _)
    · exact plain_orDir _ e

theorem plain_openMode (loc : Loc) : Plain (openMode sys loc) := by
  apply plain_call
  intro w
  dsimp only
  split <;> exact plain_same rfl

theorem plain_setPermissions (mode : Nat) (names : List Str) :
    Plain (setPermissions sys base mode names) := by
  apply plain_call
  intro w
  dsimp only
  split
  · split
    · exact plain_place rfl
    · exact plain_place rfl
    · exact plain_same rfl
  · exact plain_same rfl
  · exact plain_same rfl
  · exact plain_same rfl

end Quiet

/-! ## Calls below a directory -/

/-- What is created or changed lies below `base`, and a new link is one that stays below it
as it is written. -/
def Effect.Sound (base : Loc) (isLink : Loc → Prop) : Effect → Prop
  | symlink (_ :: loc) target => base <:+ loc ∧ Stays base isLink loc (components target)
  | symlink [] _ => False
  | mkdir loc | create loc | truncate loc | write loc _ | chmod loc _ => base <:+ loc

theorem Effect.Sound.inside {base : Loc} {isLink : Loc → Prop} {e : Effect}
    (h : e.Sound base isLink) : base <:+ e.loc := by
  cases e with
  | symlink loc target =>
    cases loc with
    | nil => exact absurd h id
    | cons name loc => exact h.1.trans (List.suffix_cons name loc)
  | _ => exact h

structure Confined (base : Loc) (isLink : Loc → Prop) (w : World) : Prop where
  tame : Tame w.tree base isLink
  sound : ∀ e ∈ w.effects, e.Sound base isLink

section Confined

variable {sys base} {isLink : Loc → Prop} {w : World}

theorem Confined.note (h : Confined base isLink w) {e : Effect} (he : e.Sound base isLink) :
    Confined base isLink (w.note e) :=
  ⟨h.tame, fun e' he' => (List.mem_cons.mp he').elim (fun heq => heq ▸ he) (h.sound e')⟩

/-- A new or changed object that is not a link. -/
theorem Confined.place (h : Confined base isLink w) {loc : Loc} {node : Node} {e : Effect}
    (hnode : ∀ target, node ≠ .link target) (he : e.Sound base isLink) :
    Confined base isLink (w.place loc node e) := by
  refine ⟨?_, (h.note he).sound⟩
  intro name parent target hparent hlink
  rw [World.place] at hlink
  simp only [Function.update_apply] at hlink
  split at hlink
  · cases hlink
    exact absurd rfl (hnode target)
  · exact h.tame name parent target hparent hlink

theorem Confined.place_link (h : Confined base isLink w) {name : Str} {loc : Loc} {target : Str}
    (hloc : base <:+ loc) (hlink : isLink (name :: loc))
    (hstays : Stays base isLink loc (components target)) :
    Confined base isLink (w.place (name :: loc) (.link target) (.symlink (name :: loc) target)) := by
  refine ⟨?_, (h.note (e := .symlink (name :: loc) target) ⟨hloc, hstays⟩).sound⟩
  intro name' parent target' hparent hnode
  rw [World.place] at hnode
  simp only [Function.update_apply] at hnode
  split at hnode
  · rename_i heq
    cases heq
    cases hnode
    exact ⟨hlink, hstays⟩
  · exact h.tame name' parent target' hparent hnode

theorem Confined.lookup_inside (h : Confined base isLink w) (sys : System) (names : List Str) :
    (lookup sys base w names).Inside base :=
  walk_inside h.tame sys.maxLinks List.suffix_rfl ((descends_names _).stays base)

variable {α : Type} {P : α → Prop}

theorem keeps_call {body : World → Except Errno α × World}
    (h : ∀ w, Confined base isLink w →
      Confined base isLink (body w).2 ∧ ∀ a, (body w).1 = .ok a → P a) :
    Run.Keeps (Confined base isLink) P (call sys body) := by
  intro w hw
  have hcalled : Confined base isLink { w with calls := w.calls + 1 } := ⟨hw.tame, hw.sound⟩
  unfold call
  split
  · exact ⟨hcalled, nofun⟩
  · exact h _ hcalled

/-- An entry is added where the lookup of its parent leads. -/
theorem keeps_addEntry {parent : List Str} {name : Str} {node : Node} {effect : Loc → Effect}
    (h : ∀ w loc, Confined base isLink w → lookup sys base w parent = .found loc →
      Confined base isLink (w.place (name :: loc) node (effect (name :: loc)))) :
    Run.Keeps (Confined base isLink) (fun _ => True) (addEntry sys base parent name node effect) := by
  refine keeps_call fun w hw => ⟨?_, fun _ _ => trivial⟩
  split
  · rename_i loc hfound
    split
    · exact hw
    · split
      · exact hw
      · exact h w loc hw hfound
  · exact hw
  · exact hw
  · exact hw

theorem keeps_mkdir (names : List Str) :
    Run.Keeps (Confined base isLink) (fun _ => True) (mkdir sys base names) := by
  cases names with
  | nil => exact keeps_call fun w hw => ⟨hw, fun _ _ => trivial⟩
  | cons name parent =>
    refine keeps_addEntry fun w loc hw hfound => hw.place nofun ?_
    have hinside := hw.lookup_inside sys parent
    rw [hfound] at hinside
    exact List.IsSuffix.trans hinside (List.suffix_cons name loc)

theorem keeps_isDir (names : List Str) :
    Run.Keeps (Confined base isLink) (fun _ => True) (isDir sys base names) := by
  refine .recover (keeps_call fun w hw => ⟨?_, fun _ _ => trivial⟩) fun _ => .pure trivial
  split <;> exact hw

theorem keeps_orDir (names : List Str) (e : Errno) :
    Run.Keeps (Confined base isLink) (fun _ => True) (orDir sys base names e) := by
  refine .bind (keeps_isDir names) fun found _ => ?_
  split
  · exact .pure trivial
  · exact .fail

theorem keeps_createDirAll (names : List Str) :
    Run.Keeps (Confined base isLink) (fun _ => True) (createDirAll sys base names) := by
  induction names with
  | nil => exact .recover (keeps_mkdir []) (keeps_orDir [])
  | cons name parent ih =>
    refine .recover (keeps_mkdir _) fun e => ?_
    split
    · exact .bind ih fun _ _ => .recover (keeps_mkdir _) (keeps_orDir _)
    · exact keeps_orDir _ e

theorem keeps_create (names : List Str) :
    Run.Keeps (Confined base isLink) (base <:+ ·) (create sys base names) := by
  refine keeps_call fun w hw => ?_
  have hinside := hw.lookup_inside sys names
  split
  · rename_i loc hfound
    rw [hfound] at hinside
    split
    · refine ⟨hw.note hinside, fun a ha => ?_⟩
      cases ha
      exact hinside
    · exact ⟨hw, nofun⟩
  · rename_i loc name hmissing
    rw [hmissing] at hinside
    have hchild : base <:+ name :: loc := List.IsSuffix.trans hinside (List.suffix_cons name loc)
    refine ⟨hw.place nofun hchild, fun a ha => ?_⟩
    cases ha
    exact hchild
  · exact ⟨hw, nofun⟩
  · exact ⟨hw, nofun⟩
  · exact ⟨hw, nofun⟩

theorem keeps_writeAll {loc : Loc} (hloc : base <:+ loc) (bytes : Nat) (intact : Bool) :
    Run.Keeps (Confined base isLink) (fun _ => True) (writeAll sys loc bytes intact) :=
  keeps_call fun _ hw => ⟨hw.note hloc, fun _ _ => trivial⟩

theorem keeps_openMode (loc : Loc) :
    Run.Keeps (Confined base isLink) (fun _ => True) (openMode sys loc) := by
  refine keeps_call fun w hw => ⟨?_, fun _ _ => trivial⟩
  split <;> exact hw

theorem keeps_setPermissions (mode : Nat) (names : List Str) :
    Run.Keeps (Confined base isLink) (fun _ => True) (setPermissions sys base mode names) := by
  refine keeps_call fun w hw => ⟨?_, fun _ _ => trivial⟩
  have hinside := hw.lookup_inside sys names
  split
  · rename_i loc hfound
    rw [hfound] at hinside
    split
    · exact hw.place nofun hinside
    · exact hw.place nofun hinside
    · exact hw
  · exact hw
  · exact hw
  · exact hw

/-- A link below directories that no link stands in for, with a target that stays below
`base` as it is written. -/
theorem keeps_symlink {name : Str} {parent : List Str} {target : Str}
    (hfree : ∀ rest, rest ≠ [] → rest <:+ parent → ¬isLink (rest ++ base))
    (hlink : isLink (name :: (parent ++ base)))
    (hstays : Stays base isLink (parent ++ base) (components target)) :
    Run.Keeps (Confined base isLink) (fun _ => True) (symlink sys base target (name :: parent)) := by
  refine keeps_addEntry fun w loc hw hfound => ?_
  have hplace : loc = parent ++ base := by
    rw [← List.reverse_reverse parent]
    refine walk_names (fun first hne hprefix target htree => ?_) hfound
    have hsuffix : first.reverse <:+ parent := by
      rw [← List.reverse_prefix, List.reverse_reverse]
      exact hprefix
    refine hfree first.reverse (by simpa using hne) hsuffix ?_
    cases hrest : first.reverse with
    | nil => exact absurd (List.reverse_eq_nil_iff.mp hrest) hne
    | cons n rest =>
      rw [hrest] at htree
      exact (hw.tame n (rest ++ base) target (List.suffix_append rest base) htree).1
  subst hplace
  exact hw.place_link (List.suffix_append parent base) hlink hstays

end Confined

end FileSystem
end Bpm
