import Bpm.Lib.Locking
import Bpm.Metadata.Races

/-!
# Locks of store objects

Writers of the store, leases and the collector lock an object by a file that is named after
it.  Leases take the locks of all their objects in one order, everybody else takes one lock
at a time, and so nobody waits forever.  An install that builds a graph volume is another
matter: it keeps the lock of the volume while it waits for its own lease.
-/

namespace Bpm

open Text Locking

namespace StoreLock

/-! ## Names -/

def lockDir (root : Str) : Str := root ++ lit "/locks"

/-- The name of an object's lock file, without the suffix. -/
def lockStem (key : ObjectKey) : Str :=
  match key.kind with
  | .artifact => key.id
  | .image => lit "img-" ++ key.id
  | .derived => lit "derived-" ++ key.id
  | .graph => lit "graph-" ++ key.id
  | .plan => lit "plan-" ++ key.id

def lockPath (root : Str) (key : ObjectKey) : Str :=
  lockDir root ++ ['/'] ++ lockStem key ++ lit ".lock"

/-- The lock file that a writer of the store names by itself. -/
def storeLockPath (root key : Str) : Str := root ++ lit "/locks/" ++ key ++ lit ".lock"

def Valid (key : ObjectKey) : Prop := validId key.kind key.id = true

instance (key : ObjectKey) : Decidable (Valid key) := inferInstanceAs (Decidable (_ = true))

theorem not_mem_of_lowerHex {key : ObjectKey} (h : Valid key) {c : Char}
    (hc : isLowerHex c = false) : c ∉ key.id := by
  intro hmem
  have hall := ((Bool.and_eq_true _ _).mp h).2
  rw [List.all_eq_true.mp hall c hmem] at hc
  cases hc

/-- Objects have lock files of their own. -/
theorem lockStem_inj {a b : ObjectKey} (ha : Valid a) (hb : Valid b)
    (h : lockStem a = lockStem b) : a = b := by
  have hdash : isLowerHex '-' = false := by decide
  have hna := not_mem_of_lowerHex ha hdash
  have hnb := not_mem_of_lowerHex hb hdash
  obtain ⟨kind, id⟩ := a
  obtain ⟨kind', id'⟩ := b
  -- only the names of artifacts have no dash, and the others begin with different letters
  cases kind <;> cases kind' <;> simp_all [lockStem, lit]
  all_goals
    rw [← h] at hnb
    simp at hnb

theorem lockPath_inj {root : Str} {a b : ObjectKey} (ha : Valid a) (hb : Valid b)
    (h : lockPath root a = lockPath root b) : a = b := by
  unfold lockPath at h
  exact lockStem_inj ha hb (List.append_cancel_left (List.append_cancel_right h))

/-! ## The order -/

/-- The order of object keys, for an order of the kinds. -/
def KeyBefore (rank : ObjectKind → Nat) (a b : ObjectKey) : Prop :=
  rank a.kind < rank b.kind ∨ a.kind = b.kind ∧ compare a.id b.id = .lt

def kindRank : ObjectKind → Nat
  | .artifact => 0
  | .image => 1
  | .derived => 2
  | .graph => 3
  | .plan => 4

theorem KeyBefore.irrefl (rank : ObjectKind → Nat) (a : ObjectKey) : ¬ KeyBefore rank a a := by
  rintro (h | ⟨_, h⟩)
  · exact lt_irrefl _ h
  · have hself : compare a.id a.id = .eq := Std.ReflCmp.compare_self
    rw [hself] at h
    cases h

theorem KeyBefore.trans {rank : ObjectKind → Nat} {a b c : ObjectKey} (hab : KeyBefore rank a b)
    (hbc : KeyBefore rank b c) : KeyBefore rank a c := by
  rcases hab with hab | ⟨hkind, hab⟩ <;> rcases hbc with hbc | ⟨hkind', hbc⟩
  · exact .inl (hab.trans hbc)
  · exact .inl (hkind' ▸ hab)
  · exact .inl (hkind ▸ hbc)
  · exact .inr ⟨hkind.trans hkind', Std.TransCmp.lt_trans hab hbc⟩

/-- Lock files in the order of their objects. -/
def PathBefore (root : Str) (rank : ObjectKind → Nat) (x y : Str) : Prop :=
  ∃ a b, Valid a ∧ Valid b ∧ lockPath root a = x ∧ lockPath root b = y ∧ KeyBefore rank a b

/-- The discipline of locks in an order of the kinds. -/
def discipline {ι : Type} (root : Str) (rank : ObjectKind → Nat) (needs : ι → Str → Prop)
    (depth : ι → Nat) : Discipline ι Str where
  before := PathBefore root rank
  irrefl := by
    rintro _ ⟨a, b, ha, hb, rfl, heq, hbefore⟩
    rw [lockPath_inj hb ha heq] at hbefore
    exact KeyBefore.irrefl rank a hbefore
  trans := by
    rintro _ _ _ ⟨a, b, ha, hb, rfl, rfl, hab⟩ ⟨b', c, hb', hc, heq, rfl, hbc⟩
    rw [lockPath_inj hb' hb heq] at hbc
    exact ⟨a, c, ha, hc, rfl, rfl, hab.trans hbc⟩
  needs := needs
  depth := depth

theorem canonicalKeys_pairwise (keys : List ObjectKey) :
    (canonicalKeys keys).Pairwise (KeyBefore kindRank) := by
  unfold canonicalKeys
  rw [List.pairwise_flatMap]
  constructor
  · intro kind _
    rw [List.pairwise_map]
    exact Std.ExtTreeMap.ordered_keys.imp fun hlt => .inr ⟨rfl, hlt⟩
  · have hkinds : ObjectKind.all.Pairwise fun a b => kindRank a < kindRank b := by decide
    refine hkinds.imp fun hrank a ha b hb => ?_
    obtain ⟨id, _, rfl⟩ := List.mem_map.mp ha
    obtain ⟨id', _, rfl⟩ := List.mem_map.mp hb
    exact .inl hrank

/-! ## Calls -/

section Calls

variable {ι : Type}

/-- Lock a set of objects, each once and all in one order. -/
def acquireAll (root : Str) (keys : List ObjectKey) : List (LockOp ι Str) :=
  ((canonicalKeys keys).map (lockPath root)).map .acquire

/-- The guards of a set of objects go. -/
def dropAll (root : Str) (keys : List ObjectKey) : List (LockOp ι Str) :=
  ((canonicalKeys keys).map (lockPath root)).map .release

/-- One lock for one call. -/
def guarded (path : Str) : List (LockOp ι Str) := [.acquire path, .release path]

/-- The calls that lock objects. -/
inductive Call
  | acquireLease (keys : List ObjectKey)
  | extend (held keys : List ObjectKey)
  | collect (selected : List ObjectKey)
  | ensureArtifact (id : Str)
  | ensureImage (id : Str)
  | ensureDerived (key : Str)

namespace Call

/-- What a call locks and when it lets go. -/
def program (root : Str) : Call → List (LockOp ι Str)
  | acquireLease keys => acquireAll root keys ++ dropAll root keys
  | extend held keys =>
      let new := (canonicalKeys keys).filter fun key => key ∉ held
      acquireAll root new ++ dropAll root new
  | collect selected => selected.flatMap fun key => guarded (lockPath root key)
  | ensureArtifact id => guarded (storeLockPath root id)
  | ensureImage id => guarded (storeLockPath root (lit "img-" ++ id))
  | ensureDerived key => guarded (storeLockPath root (lit "derived-" ++ key))

/-- The objects of a call. -/
def keys : Call → List ObjectKey
  | acquireLease keys => keys
  | extend _ keys => keys
  | collect selected => selected
  | ensureArtifact id => [⟨.artifact, id⟩]
  | ensureImage id => [⟨.image, id⟩]
  | ensureDerived key => [⟨.derived, key⟩]

end Call

section Ascending

variable {root : Str} {rank : ObjectKind → Nat} {needs : ι → Str → Prop} {depth : ι → Nat} {i : ι}
  {rest : List (LockOp ι Str)}

/-- The lock files of a set of objects are in the order of the objects. -/
theorem paths_pairwise {keys : List ObjectKey} (hvalid : ∀ key ∈ keys, Valid key)
    (hrank : ∀ a ∈ keys, ∀ b ∈ keys, kindRank a.kind < kindRank b.kind → rank a.kind < rank b.kind) :
    ((canonicalKeys keys).map (lockPath root)).Pairwise (PathBefore root rank) := by
  rw [List.pairwise_map]
  refine (canonicalKeys_pairwise keys).imp_of_mem fun {a b} ha hb hbefore => ?_
  have ha := mem_canonicalKeys.mp ha
  have hb := mem_canonicalKeys.mp hb
  refine ⟨a, b, hvalid a ha, hvalid b hb, rfl, rfl, ?_⟩
  rcases hbefore with hlt | hsame
  · exact .inl (hrank a ha b hb hlt)
  · exact .inr hsame

theorem ascending_locked {keys : List ObjectKey} (hvalid : ∀ key ∈ keys, Valid key)
    (hrank : ∀ a ∈ keys, ∀ b ∈ keys, kindRank a.kind < kindRank b.kind → rank a.kind < rank b.kind)
    (hneeds : ∀ key ∈ keys, needs i (lockPath root key))
    (h : Ascending (discipline root rank needs depth) i [] rest) :
    Ascending (discipline root rank needs depth) i []
      (acquireAll root keys ++ dropAll root keys ++ rest) := by
  have hall : ∀ path ∈ (canonicalKeys keys).map (lockPath root),
      (discipline root rank needs depth).needs i path := by
    intro path hpath
    obtain ⟨key, hkey, rfl⟩ := List.mem_map.mp hpath
    exact hneeds key (mem_canonicalKeys.mp hkey)
  exact Ascending.locked (paths_pairwise hvalid hrank) hall h

end Ascending

end Calls

/-! ## An install -/

/-- The two threads of an install while the graph volume is made ready. -/
inductive Thread
  | main | lease
deriving DecidableEq

instance : Fintype Thread where
  elems := {.main, .lease}
  complete := fun thread => by cases thread <;> decide

/-- The main thread ensures the volume and then waits for the lease.  What it needs follows
from two looks at the volume, before and with the lock: a volume that is built keeps its lock
until it is published, which is after the wait. -/
def mainThread {ι : Type} (root graphHex : Str) (lease : ι) (first second : Bool) :
    List (LockOp ι Str) :=
  let path := lockPath root ⟨.graph, graphHex⟩
  if first then [.await lease]
  else if second then [.acquire path, .release path, .await lease]
  else [.acquire path, .await lease, .release path]

/-- A lease covers the volume alone if it is expected to be reused, and the objects that the
volume is built from otherwise. -/
def leaseKeys (graphHex : Str) (expected : Bool) (artifacts derived : List Str) : List ObjectKey :=
  if expected then [⟨.graph, graphHex⟩] else sessionKeys artifacts derived

def leaseThread {ι : Type} (root graphHex : Str) (expected : Bool) (artifacts derived : List Str) :
    List (LockOp ι Str) :=
  (Call.acquireLease (leaseKeys graphHex expected artifacts derived)).program root

def installThreads (root graphHex : Str) (expected first second : Bool)
    (artifacts derived : List Str) : Thread → List (LockOp Thread Str)
  | .main => mainThread root graphHex .lease first second
  | .lease => leaseThread root graphHex expected artifacts derived

theorem canonicalKeys_singleton (key : ObjectKey) : canonicalKeys [key] = [key] := by
  have hne : ∀ {a b : ObjectKey}, KeyBefore kindRank a b → a ≠ b := by
    rintro a _ hbefore rfl
    exact KeyBefore.irrefl kindRank a hbefore
  have hnodup : (canonicalKeys [key]).Nodup := (canonicalKeys_pairwise [key]).imp hne
  have hmem : ∀ other, other ∈ canonicalKeys [key] ↔ other ∈ [key] := fun _ => mem_canonicalKeys
  exact List.perm_singleton.mp ((List.perm_ext_iff_of_nodup hnodup (by simp)).mpr hmem)

/-- The graphs before everything else, as an install that builds one takes the locks. -/
def graphFirst : ObjectKind → Nat
  | .graph => 0
  | .artifact => 1
  | .image => 2
  | .derived => 3
  | .plan => 4

section Install

variable {root graphHex : Str} {artifacts derived : List Str} {expected first second : Bool}

theorem mem_sessionKeys_kind {key : ObjectKey} (h : key ∈ sessionKeys artifacts derived) :
    key.kind ≠ .graph := by
  rcases List.mem_append.mp h with hartifact | hderived
  · obtain ⟨hex, _, hmem⟩ := List.mem_flatMap.mp hartifact
    rcases List.mem_cons.mp hmem with rfl | himage
    · simp
    · cases List.mem_singleton.mp himage
      simp
  · obtain ⟨hex, _, rfl⟩ := List.mem_map.mp hderived
    simp

/-- The locks of the threads: those of the lease are all that it needs. -/
def threadNeeds (root : Str) (keys : List ObjectKey) : Thread → Str → Prop
  | .main, _ => True
  | .lease, path => ∃ key ∈ keys, lockPath root key = path

def threadDepth : Thread → Nat
  | .main => 1
  | .lease => 0

/-- Unless the volume is built against expectation, the threads keep to an order. -/
theorem installThreads_ascending (hgraph : Valid ⟨.graph, graphHex⟩)
    (hkeys : ∀ key ∈ leaseKeys graphHex expected artifacts derived, Valid key)
    (hcase : expected = false ∨ first = true ∨ second = true) (thread : Thread) :
    Ascending (discipline root graphFirst
        (threadNeeds root (leaseKeys graphHex expected artifacts derived)) threadDepth) thread []
      (installThreads root graphHex expected first second artifacts derived thread) := by
  have hdepth : threadDepth Thread.lease < threadDepth Thread.main := by decide
  cases thread with
  | main =>
    show Ascending _ _ [] (mainThread root graphHex Thread.lease first second)
    unfold mainThread
    cases first with
    | true => exact ⟨hdepth, fun key _ => ⟨trivial, by simp⟩, rfl⟩
    | false =>
      cases second with
      | true =>
        refine ⟨trivial, by simp, List.mem_cons_self, hdepth, fun key _ => ⟨trivial, ?_⟩, ?_⟩
        · simp
        · simp [Ascending]
      | false =>
        have hexpected : expected = false := by simpa using hcase
        subst hexpected
        refine ⟨trivial, by simp, hdepth, fun path hpath => ⟨trivial, fun held hheld => ?_⟩,
          List.mem_cons_self, by simp [Ascending]⟩
        cases List.mem_singleton.mp hheld
        obtain ⟨key, hkey, rfl⟩ := hpath
        refine ⟨_, key, hgraph, hkeys key hkey, rfl, rfl, .inl ?_⟩
        have hkind := mem_sessionKeys_kind hkey
        cases hk : key.kind <;> simp_all [graphFirst]
  | lease =>
    show Ascending _ _ [] (leaseThread root graphHex expected artifacts derived)
    have hrank : ∀ a ∈ leaseKeys graphHex expected artifacts derived,
        ∀ b ∈ leaseKeys graphHex expected artifacts derived,
          kindRank a.kind < kindRank b.kind → graphFirst a.kind < graphFirst b.kind := by
      intro a ha b hb hlt
      cases expected with
      | true =>
        cases List.mem_singleton.mp ha
        cases List.mem_singleton.mp hb
        exact absurd hlt (lt_irrefl _)
      | false =>
        have hakind := mem_sessionKeys_kind ha
        have hbkind := mem_sessionKeys_kind hb
        cases hak : a.kind <;> cases hbk : b.kind <;> simp_all [graphFirst, kindRank]
    have hlocked : Ascending (discipline root graphFirst
        (threadNeeds root (leaseKeys graphHex expected artifacts derived)) threadDepth)
        Thread.lease [] (leaseThread root graphHex expected artifacts derived ++ []) :=
      ascending_locked hkeys hrank (fun key hkey => ⟨key, hkey, rfl⟩) rfl
    rwa [List.append_nil] at hlocked

/-- A main thread that builds and locks the volume before a lease of the volume does. -/
theorem build_entangled {ι : Type} [DecidableEq ι] {programs : ι → List (LockOp ι Str)} {i j : ι}
    (hmain : programs i = mainThread root graphHex j false false)
    (hlease : programs j = leaseThread root graphHex true artifacts derived) {before after : List ι}
    (hi : i ∉ before) (hj : j ∉ before) {s : Locking ι Str}
    (h : Locking.Run (start programs) (before ++ i :: after) s) :
    Entangled s i j (lockPath root ⟨.graph, graphHex⟩) := by
  have hprogram : programs j =
      [.acquire (lockPath root ⟨.graph, graphHex⟩), .release (lockPath root ⟨.graph, graphHex⟩)] := by
    rw [hlease]
    show acquireAll root [_] ++ dropAll root [_] = _
    rw [acquireAll, dropAll, canonicalKeys_singleton]
    rfl
  have hne : j ≠ i := by
    rintro rfl
    rw [hmain] at hprogram
    cases hprogram
  obtain ⟨m, hfront, hback⟩ := h.split
  cases hback with
  | step hstep hrest =>
    have htodoi := (hfront.todo_of_notMem hi).trans hmain
    have htodoj := (hfront.todo_of_notMem hj).trans hprogram
    exact ((Entangled.of_step hstep htodoi htodoj hne).run hrest).1

/-- The threads of an install can get stuck if and only if the volume was expected to be
reused and then has to be built. -/
theorem install_stuck_iff (hgraph : Valid ⟨.graph, graphHex⟩)
    (hkeys : ∀ key ∈ sessionKeys artifacts derived, Valid key) :
    (∃ labels s, Locking.Run
        (start (installThreads root graphHex expected first second artifacts derived)) labels s ∧
        s.Stuck) ↔ expected = true ∧ first = false ∧ second = false := by
  constructor
  · rintro ⟨labels, s, hrun, hstuck⟩
    by_contra hnot
    have hcase : expected = false ∨ first = true ∨ second = true := by
      cases expected <;> cases first <;> cases second <;> simp_all
    have hvalid : ∀ key ∈ leaseKeys graphHex expected artifacts derived, Valid key := by
      intro key hkey
      cases expected with
      | true =>
        cases List.mem_singleton.mp hkey
        exact hgraph
      | false => exact hkeys key hkey
    exact (ascending_complete (fun thread => installThreads_ascending hgraph hvalid hcase thread)
      hrun).1 hstuck
  · rintro ⟨rfl, rfl, rfl⟩
    let programs := installThreads root graphHex true false false artifacts derived
    obtain ⟨s, hstep⟩ : ∃ s, (start programs).step .main = some s := ⟨_, rfl⟩
    have hrun : Locking.Run (start programs) ([] ++ Thread.main :: []) s := .step hstep (.refl s)
    have hmainThread : programs .main = mainThread root graphHex Thread.lease false false := rfl
    have hleaseThread : programs .lease = leaseThread root graphHex true artifacts derived := rfl
    have hentangled := build_entangled hmainThread hleaseThread (by simp) (by simp) hrun
    obtain ⟨hmain, hlease⟩ := hentangled.blocked
    refine ⟨_, s, hrun, fun hdone => ?_, fun thread => ?_⟩
    · obtain ⟨rest, hwaits⟩ := hentangled.waits
      rw [hdone] at hwaits
      cases hwaits
    · cases thread with
      | main => exact hmain
      | lease => exact hlease

theorem install_stuck_iff_empty :
    (∃ labels s, Locking.Run
        (start (installThreads [] (repeatedId .graph '1') true false false [] [])) labels s ∧
        s.Stuck) ↔ true = true ∧ false = false ∧ false = false :=
  install_stuck_iff (by decide +kernel) (by simp [sessionKeys])

end Install

end StoreLock
end Bpm
