import Bpm.Lib.Protocol
import Bpm.Lib.Relinks
import Bpm.Volume.Reconcile

/-!
# Installs that build a graph volume

Installs that need the same graph volume first look at its marker without a lock.  One that
the volume does not serve takes the lock of the graph, looks again, removes what is there,
builds a new tree aside and renames it to its place.  A removal is one object after the
other, and an install may die at any time.  The collector, and an install whose plan is
cached and finds an object missing, also remove volumes; they take no step here.
-/

namespace Bpm
namespace GraphVolume

open Text FileTree Disk ProjectView

def metaFile : Str := lit "metadata.json"

def volumeLayoutVersion : Nat := 12

structure VolumeEntryIdentity where
  name : Str
  identity : Str
deriving DecidableEq

/-- The marker of a volume, as far as it decides on its use. -/
structure VolumeMeta where
  graphIdHex : Str
  layoutVersion : Nat
  entryIdentities : List VolumeEntryIdentity
  ignoreScripts : Bool
deriving DecidableEq

/-- What the installs of one graph have in common: how many links a lookup follows, the
texts of markers, the graph, and for each of the installs whether it ignores scripts. -/
structure Builders (ι β : Type) where
  maxLinks : Nat
  parse : β → Option VolumeMeta
  render : VolumeMeta → β
  graphHex : Str
  ignoreScripts : ι → Bool

/-- How a volume looks to an install. -/
inductive Look
  | hit | stale | missing
deriving DecidableEq

namespace Builders

section

variable {ι β : Type} (b : Builders ι β)

/-- A reference to an entry that is there, under a name of its own. -/
def validEntry (tree : Disk β) (e : VolumeEntryIdentity) : Bool :=
  !e.name.isEmpty && !e.name.contains '/' && !e.name.contains '\\' &&
    stripPrefix identityTreeVolume e.identity == some e.name &&
    (resolve b.maxLinks tree [] [e.name, nodeModules]).isSome

/-- The references of a marker, if they are those of exactly the entries that are there. -/
def validEntryIdentities (m : VolumeMeta) (tree : Disk β) : Option (List VolumeEntryIdentity) :=
  if m.entryIdentities.all (b.validEntry tree) && decide (m.entryIdentities.map (·.name)).Nodup then
    match resolve b.maxLinks tree [] [nodeModules] with
    | some loc =>
        if isDir tree loc && (names tree loc).all (fun name =>
              (m.entryIdentities.map (·.name)).contains name) &&
            (m.entryIdentities.map (·.name)).all (names tree loc).contains then
          some m.entryIdentities
        else none
    | none => none
  else none

def scriptlessMetaServes (m : VolumeMeta) (requestedIgnoreScripts : Bool) : Bool :=
  !m.ignoreScripts || requestedIgnoreScripts

def currentMeta (m : VolumeMeta) (tree : Disk β) : Bool :=
  m.graphIdHex == b.graphHex && m.layoutVersion == volumeLayoutVersion &&
    (b.validEntryIdentities m tree).isSome

/-- The bytes of the marker. -/
def marker (tree : Disk β) : Option β :=
  match tree[[metaFile]]? with
  | some (.file bytes) => some bytes
  | _ => none

/-- What an install makes of the marker that it has read, and of what is at the place of the
volume. -/
def judge (requestedIgnoreScripts : Bool) (bytes : Option β) (volume : Option (Disk β)) : Look :=
  match bytes with
  | none => .missing
  | some bytes =>
      match b.parse bytes with
      | some m =>
          if volume.any (b.currentMeta m) && scriptlessMetaServes m requestedIgnoreScripts then .hit
          else .stale
      | none => .stale

def look (requestedIgnoreScripts : Bool) (volume : Option (Disk β)) : Look :=
  b.judge requestedIgnoreScripts (volume.bind marker) volume

/-- References to all entries of a tree, if their names are safe. -/
def computeEntryIdentities (tree : Disk β) : Option (List VolumeEntryIdentity) :=
  if !isDir tree [nodeModules] then none
  else if (names tree [nodeModules]).any fun name =>
      name.isEmpty || name.contains '/' || name.contains '\\' then none
  else some ((names tree [nodeModules]).map fun name => ⟨name, identityTreeVolume ++ name⟩)

/-- The tree that an install publishes: what it has built, and the marker. -/
def published (i : ι) (tree : Disk β) : Option (Disk β) :=
  (computeEntryIdentities tree).map fun identities =>
    tree.insert [metaFile]
      (.file (b.render ⟨b.graphHex, volumeLayoutVersion, identities, b.ignoreScripts i⟩))

end

end Builders

/-- A tree as a build leaves it: packages are directories. -/
structure Built {β : Type} (tree : Disk β) : Prop where
  dir : tree[[nodeModules]]? = some .dir
  entries : ∀ name target, tree[[name, nodeModules]]? ≠ some (.link target)

namespace Builders

/-! ## How published volumes look -/

section

variable {ι β : Type} {b : Builders ι β} {i : ι} {built tree tree' : Disk β}
  {entries : List VolumeEntryIdentity}

theorem computeEntryIdentities_eq_some (h : computeEntryIdentities built = some entries) :
    entries = (names built [nodeModules]).map (fun name => ⟨name, identityTreeVolume ++ name⟩) ∧
      ∀ name ∈ names built [nodeModules],
        name.isEmpty = false ∧ name.contains '/' = false ∧ name.contains '\\' = false := by
  unfold computeEntryIdentities at h
  split at h
  · cases h
  · split at h
    · cases h
    · rename_i hsafe
      constructor
      · exact (Option.some.inj h).symm
      · intro name hname
        by_contra hnot
        apply hsafe
        rw [List.any_eq_true]
        refine ⟨name, hname, ?_⟩
        cases hempty : name.isEmpty <;> cases hslash : name.contains '/' <;>
          cases hback : name.contains '\\' <;> simp_all

/-- What a tree has to share with the one that was built to look like the volume. -/
structure Alike (built tree : Disk β) : Prop where
  dir : tree[[nodeModules]]? = some .dir
  entries : ∀ name, tree[[name, nodeModules]]? = built[[name, nodeModules]]?

theorem Alike.mem_names (h : Alike built tree) {name : Str} :
    name ∈ names tree [nodeModules] ↔ name ∈ names built [nodeModules] := by
  rw [PackageTree.mem_names, PackageTree.mem_names, h.entries]

theorem Alike.dirs (h : Alike built tree) {loc : Loc} (hway : Way [] [nodeModules] loc) :
    tree[loc]? = some .dir := by
  rcases way_cons.mp hway with rfl | hway
  · exact h.dir
  · exact absurd hway not_way_nil

theorem Alike.resolve_entry (h : Alike built tree) (hbuilt : Built built) {name : Str}
    (hname : name ∈ names built [nodeModules]) :
    resolve b.maxLinks tree [] [name, nodeModules] = some [name, nodeModules] := by
  have hthere := PackageTree.mem_names.mp hname
  rw [← h.entries] at hthere
  obtain ⟨object, hobject⟩ := Option.ne_none_iff_exists'.mp hthere
  apply resolve_of_object (fun loc hway => h.dirs hway) hobject
  cases object with
  | link target => exact absurd (h.entries name ▸ hobject) (hbuilt.entries name target)
  | _ => rfl

theorem Alike.validEntry (h : Alike built tree) (hbuilt : Built built) {name : Str}
    (hname : name ∈ names built [nodeModules])
    (hsafe : name.isEmpty = false ∧ name.contains '/' = false ∧ name.contains '\\' = false) :
    b.validEntry tree ⟨name, identityTreeVolume ++ name⟩ = true := by
  unfold Builders.validEntry
  dsimp only
  rw [hsafe.1, hsafe.2.1, hsafe.2.2, stripPrefix_append, h.resolve_entry hbuilt hname]
  simp

theorem Alike.validEntryIdentities (h : Alike built tree) (hbuilt : Built built)
    (hentries : computeEntryIdentities built = some entries) (m : VolumeMeta)
    (hm : m.entryIdentities = entries) : b.validEntryIdentities m tree = some entries := by
  obtain ⟨rfl, hsafe⟩ := computeEntryIdentities_eq_some hentries
  have hnames : m.entryIdentities.map (·.name) = names built [nodeModules] := by
    rw [hm, List.map_map]
    exact List.map_id _
  have hall : m.entryIdentities.all (b.validEntry tree) = true := by
    rw [hm, List.all_map, List.all_eq_true]
    intro name hname
    exact h.validEntry hbuilt hname (hsafe name hname)
  have hresolve : resolve b.maxLinks tree [] [nodeModules] = some [nodeModules] := by
    rw [resolve_of_dirs fun loc hway => h.dirs hway, List.append_nil]
  unfold Builders.validEntryIdentities
  rw [hall, hnames, decide_eq_true (PackageTree.names_nodup built _), hresolve]
  dsimp only
  rw [isDir_of_get h.dir, if_pos, if_pos, hm]
  · rw [Bool.true_and, Bool.and_eq_true, List.all_eq_true, List.all_eq_true]
    constructor
    · intro name hname
      exact List.contains_iff_mem.mpr (h.mem_names.mp hname)
    · intro name hname
      exact List.contains_iff_mem.mpr (h.mem_names.mpr hname)
  · rfl

/-- A tree that is like the one that an install has built, with its marker. -/
structure Marked (b : Builders ι β) (i : ι) (built tree : Disk β) : Prop where
  alike : Alike built tree
  marker : ∃ entries, computeEntryIdentities built = some entries ∧
    marker tree = some (b.render ⟨b.graphHex, volumeLayoutVersion, entries, b.ignoreScripts i⟩)

/-- Such a tree serves those that ignore scripts, and all if its install has run them. -/
theorem Marked.look (h : b.Marked i built tree) (hbuilt : Built built)
    (hcodec : ∀ m, b.parse (b.render m) = some m) (requested : Bool) :
    b.look requested (some tree) =
      if !b.ignoreScripts i || requested then .hit else .stale := by
  obtain ⟨entries, hentries, hmarker⟩ := h.marker
  have hcurrent : b.currentMeta
      ⟨b.graphHex, volumeLayoutVersion, entries, b.ignoreScripts i⟩ tree = true := by
    unfold currentMeta
    rw [h.alike.validEntryIdentities hbuilt hentries _ rfl]
    simp
  unfold Builders.look judge
  simp only [Option.bind_some, hmarker, hcodec, Option.any_some, hcurrent, Bool.true_and,
    scriptlessMetaServes]

theorem marked_published (hbuilt : Built built) (h : b.published i built = some tree) :
    b.Marked i built tree := by
  obtain ⟨entries, hentries, rfl⟩ := Option.map_eq_some_iff.mp h
  have hmeta : metaFile ≠ nodeModules := by decide
  refine ⟨⟨?_, ?_⟩, entries, hentries, ?_⟩
  · rw [get_insert, if_neg (by simp [hmeta]), hbuilt.dir]
  · intro name
    rw [get_insert, if_neg (by simp)]
  · unfold Builders.marker
    rw [get_insert, if_pos rfl]

/-- Nothing that decides about a volume is inside of its entries. -/
theorem Marked.remove (h : b.Marked i built tree) {key : Loc} (hkey : 2 < key.length) :
    b.Marked i built (tree.remove key) := by
  -- the marker, the directory of the entries and the entries are all that is looked at
  have hsame : ∀ other : Loc, other.length ≤ 2 → (tree.remove key)[other]? = tree[other]? := by
    intro other hother
    rw [get_remove, if_neg]
    intro hsuffix
    have hlen := hsuffix.length_le
    omega
  refine ⟨⟨?_, ?_⟩, ?_⟩
  · rw [hsame _ (by simp), h.alike.dir]
  · intro name
    rw [hsame _ (by simp), h.alike.entries]
  · obtain ⟨entries, hentries, hmarker⟩ := h.marker
    refine ⟨entries, hentries, ?_⟩
    unfold Builders.marker at hmarker ⊢
    rw [hsame _ (by simp)]
    exact hmarker

theorem marker_of_fewer (h : Fewer tree' tree) {bytes : β} (hmarker : marker tree' = some bytes) :
    marker tree = some bytes := by
  unfold marker at hmarker ⊢
  split at hmarker
  · rename_i hget
    rw [h.get hget]
    exact hmarker
  · cases hmarker

end

/-! ## Volumes that stay -/

section

variable {ι β : Type} (b : Builders ι β)

/-- The volume of this install is good for all installs. -/
def Firm (i : ι) : Prop := b.ignoreScripts i = false ∨ ∀ j, b.ignoreScripts j = true

/-- A volume that nobody has a reason to remove. -/
def Kept (tree : Disk β) : Prop :=
  ∃ i built, b.Firm i ∧ Built built ∧ b.published i built = some tree

/-- A marker that does not make a firm install use the volume. -/
def Harmless (bytes : β) : Prop :=
  ∀ m, b.parse bytes = some m →
    m.graphIdHex ≠ b.graphHex ∨ m.layoutVersion ≠ volumeLayoutVersion ∨
      ∀ i, b.Firm i → scriptlessMetaServes m (b.ignoreScripts i) = false

def Loose (tree : Disk β) : Prop := ∀ bytes, marker tree = some bytes → b.Harmless bytes

end

section

variable {ι β : Type} {b : Builders ι β} {i : ι} {tree tree' : Disk β}

theorem Kept.look (h : b.Kept tree) (hcodec : ∀ m, b.parse (b.render m) = some m) (j : ι) :
    b.look (b.ignoreScripts j) (some tree) = .hit := by
  obtain ⟨i, built, hfirm, hbuilt, hpublished⟩ := h
  rw [(marked_published hbuilt hpublished).look hbuilt hcodec, if_pos]
  rcases hfirm with hran | hall
  · simp [hran]
  · simp [hall j]

theorem Harmless.judge {bytes : β} (h : b.Harmless bytes) (hfirm : b.Firm i)
    (volume : Option (Disk β)) : b.judge (b.ignoreScripts i) (some bytes) volume ≠ .hit := by
  unfold Builders.judge
  cases hparse : b.parse bytes with
  | none => simp [hparse]
  | some m =>
    have hnot : (volume.any (b.currentMeta m) && scriptlessMetaServes m (b.ignoreScripts i)) =
        false := by
      rcases h m hparse with hgraph | hlayout | hserves
      · cases volume <;> simp [currentMeta, hgraph]
      · cases volume <;> simp [currentMeta, hlayout]
      · rw [hserves i hfirm, Bool.and_false]
    simp [hparse, hnot]

theorem Loose.look (h : b.Loose tree) (hfirm : b.Firm i) :
    b.look (b.ignoreScripts i) (some tree) ≠ .hit := by
  unfold Builders.look
  rw [Option.bind_some]
  cases hmarker : marker tree with
  | none => exact fun hnone => by cases hnone
  | some bytes => exact (h bytes hmarker).judge hfirm _

theorem Kept.not_loose (h : b.Kept tree) (hcodec : ∀ m, b.parse (b.render m) = some m) :
    ¬b.Loose tree := by
  obtain ⟨i, built, hfirm, hpublished⟩ := id h
  exact fun hloose => hloose.look hfirm (h.look hcodec i)

theorem Loose.fewer (h : b.Loose tree) (hfewer : Fewer tree' tree) : b.Loose tree' :=
  fun bytes hmarker => h bytes (marker_of_fewer hfewer hmarker)

/-- What an install publishes is kept, or it is loose because the scripts have not run. -/
theorem kept_or_loose {built : Disk β} (hcodec : ∀ m, b.parse (b.render m) = some m)
    (hbuilt : Built built) (h : b.published i built = some tree) :
    b.Kept tree ∨ ¬b.Firm i ∧ b.Loose tree := by
  by_cases hfirm : b.Firm i
  · exact .inl ⟨i, built, hfirm, hbuilt, h⟩
  · right
    apply And.intro hfirm
    obtain ⟨entries, _, hmarker⟩ := (marked_published hbuilt h).marker
    intro bytes hbytes m hparse
    obtain rfl := Option.some.inj (hmarker.symm.trans hbytes)
    obtain rfl := Option.some.inj ((hcodec _).symm.trans hparse)
    right
    right
    intro j hj
    unfold Firm at hfirm hj
    -- the scripts have not run, and an install for which that matters is firm
    have hran : b.ignoreScripts i = true := by
      by_contra hnot
      exact hfirm (.inl (Bool.not_eq_true _ ▸ hnot))
    have hj' : b.ignoreScripts j = false := hj.resolve_right fun hall => hfirm (.inr hall)
    simp [scriptlessMetaServes, hran, hj']

end

end Builders

/-! ## The steps of an install -/

/-- Where an install is. -/
inductive Phase (β : Type)
  | start
  | reading (marker : Option β)
  | waiting (stale : Bool)
  | locked (stale : Bool)
  | clearing
  | building
  | publishing (tree : Disk β)
  | returned (cached : Bool)
  | gone

/-- The install is at work on the volume, under the lock. -/
def Phase.Working {β : Type} : Phase β → Prop
  | clearing | building | publishing _ => True
  | _ => False

def Phase.Holding {β : Type} : Phase β → Prop
  | locked _ => True
  | phase => phase.Working

theorem Phase.Working.holding {β : Type} {phase : Phase β} (h : phase.Working) : phase.Holding := by
  cases phase <;> first | exact h | trivial

/-- What is at the place of the volume, who has the lock, and where the installs are. -/
structure State (ι β : Type) where
  volume : Option (Disk β)
  holder : Option ι
  phase : ι → Phase β

namespace Builders

variable {ι β : Type} [DecidableEq ι] (b : Builders ι β)

def goto (s : State ι β) (i : ι) (phase : Phase β) : State ι β :=
  { s with phase := Function.update s.phase i phase }

def afterLook : Look → Phase β
  | .hit => .returned true
  | .stale => .waiting true
  | .missing => .waiting false

/-- An install ends, and its lock is free. -/
def leave (s : State ι β) (i : ι) (phase : Phase β) : State ι β :=
  { goto s i phase with holder := if s.holder = some i then none else s.holder }

/-- One step of a recursive removal. -/
inductive Unlink : Option (Disk β) → Option (Disk β) → Prop
  | object (tree : Disk β) (key : Loc) (hkey : tree[key]? ≠ none)
      (hleaf : ∀ other, key <:+ other → other ≠ key → tree[other]? = none) :
      Unlink (some tree) (some (tree.remove key))
  | root (tree : Disk β) (hempty : ∀ key : Loc, tree[key]? = none) : Unlink (some tree) none

/-- The steps of `ensure_graph_volume` and of the publication of what it has built. -/
inductive Step (s : State ι β) (i : ι) : State ι β → Prop
  | read (hphase : s.phase i = .start) :
      Step s i (goto s i (.reading (s.volume.bind marker)))
  -- the entries are looked at after the marker, and may be another's by then
  | look (bytes : Option β) (hphase : s.phase i = .reading bytes) :
      Step s i (goto s i (afterLook (b.judge (b.ignoreScripts i) bytes s.volume)))
  | lock (stale : Bool) (hphase : s.phase i = .waiting stale) (hfree : s.holder = none) :
      Step s i { goto s i (.locked stale) with holder := some i }
  | lookAgain (stale : Bool) (hphase : s.phase i = .locked stale)
      (hhit : b.look (b.ignoreScripts i) s.volume = .hit) : Step s i (leave s i (.returned true))
  -- what the first look found decides whether the place is cleared before the build
  | begin (stale : Bool) (hphase : s.phase i = .locked stale)
      (hmiss : b.look (b.ignoreScripts i) s.volume ≠ .hit) :
      Step s i (goto s i (if stale then .clearing else .building))
  -- a removal that fails is given up, and the build goes on
  | cleared (hphase : s.phase i = .clearing) : Step s i (goto s i .building)
  | build (tree : Disk β) (hphase : s.phase i = .building) (hbuilt : Built tree)
      (published : Disk β) (hpublished : b.published i tree = some published) :
      Step s i (goto s i (.publishing published))
  -- before a build, and again before its tree is renamed
  | unlink (volume : Option (Disk β))
      (hphase : s.phase i = .clearing ∨ ∃ tree, s.phase i = .publishing tree)
      (hunlink : Unlink s.volume volume) : Step s i { s with volume }
  -- a rename does not replace a directory that has something in it
  | rename (tree : Disk β) (hphase : s.phase i = .publishing tree)
      (hgone : ∀ old, s.volume = some old → ∀ key : Loc, old[key]? = none) :
      Step s i { leave s i (.returned false) with volume := some tree }
  -- by a failure or a crash: the tree that it has built is nobody else's
  | die (hphase : ∀ cached, s.phase i ≠ .returned cached) : Step s i (leave s i .gone)

/-- What another release has left, or nothing that reads as a marker. -/
def Outdated (tree : Disk β) : Prop :=
  ∀ bytes m, marker tree = some bytes → b.parse bytes = some m →
    m.graphIdHex ≠ b.graphHex ∨ m.layoutVersion ≠ volumeLayoutVersion

/-- A tree that some install has published. -/
def Published (tree : Disk β) : Prop := ∃ j built, Built built ∧ b.published j built = some tree

/-- The installs start with any volume that was published or is outdated, or with none. -/
def protocol : Protocol (State ι β) ι where
  init s := (∀ tree, s.volume = some tree → b.Published tree ∨ b.Outdated tree) ∧
    s.holder = none ∧ ∀ i, s.phase i = .start
  step s i s' := b.Step s i s'

/-- The states that are reached from a state. -/
def Later (s s' : State ι β) : Prop := Relation.ReflTransGen (fun s s' => ∃ i, b.Step s i s') s s'

/-! ## What every interleaving keeps -/

/-- No volume that nobody has a reason to remove is in place. -/
def Open (volume : Option (Disk β)) : Prop := ∀ tree, volume = some tree → ¬b.Kept tree

def Secured (volume : Option (Disk β)) : Prop := ∃ tree, volume = some tree ∧ b.Kept tree

/-- What is known when an install is in a phase. -/
def Fit (volume : Option (Disk β)) (i : ι) : Phase β → Prop
  | .reading (some bytes) => b.Harmless bytes ∨ b.Secured volume
  | .clearing | .building => b.Open volume
  | .publishing tree => b.Open volume ∧ ∃ built, Built built ∧ b.published i built = some tree
  | .returned _ => b.Firm i → b.Secured volume
  | _ => True

structure Inv (s : State ι β) : Prop where
  lock : ∀ i, (s.phase i).Holding → s.holder = some i
  volume : ∀ tree, s.volume = some tree → b.Kept tree ∨ b.Loose tree
  fit : ∀ i, b.Fit s.volume i (s.phase i)

section

variable {b : Builders ι β} {s s' : State ι β} {i : ι} {tree tree' : Disk β}

theorem phase_goto (s : State ι β) (i : ι) (phase : Phase β) (j : ι) :
    (goto s i phase).phase j = if j = i then phase else s.phase j := by
  simp only [goto, Function.update_apply]

omit [DecidableEq ι] in
theorem working_of (hphase : s.phase i = .clearing ∨ ∃ tree, s.phase i = .publishing tree) :
    (s.phase i).Working := by
  rcases hphase with hphase | ⟨tree, hphase⟩
  · rw [hphase]
    trivial
  · rw [hphase]
    trivial

theorem Unlink.fewer {volume : Option (Disk β)} (h : Unlink (some tree) volume)
    (hsome : volume = some tree') : Fewer tree' tree := by
  cases h with
  | object _ key hkey hleaf =>
    cases hsome
    exact fewer_remove tree key
  | root _ hempty => cases hsome

omit [DecidableEq ι] in
theorem Fit.working {volume : Option (Disk β)} {phase : Phase β} (h : b.Fit volume i phase)
    (hworking : phase.Working) : b.Open volume := by
  cases phase with
  | clearing => exact h
  | building => exact h
  | publishing tree => exact h.1
  | _ => exact absurd hworking id

omit [DecidableEq ι] in
/-- While a volume may be removed, what is known of the phases does not rest on it. -/
theorem Fit.change {volume volume' : Option (Disk β)} {phase : Phase β}
    (h : b.Fit volume i phase) (hopen : b.Open volume) (hnew : phase.Working → b.Open volume') :
    b.Fit volume' i phase := by
  have hunsecured : ¬b.Secured volume := by
    rintro ⟨tree, hsome, hkept⟩
    exact hopen tree hsome hkept
  cases phase with
  | reading bytes =>
    cases bytes with
    | none => trivial
    | some bytes => exact .inl (h.resolve_right hunsecured)
  | clearing => exact hnew trivial
  | building => exact hnew trivial
  | publishing tree => exact ⟨hnew trivial, h.2⟩
  | returned cached => exact fun hfirm => absurd (h hfirm) hunsecured
  | _ => trivial

/-- A step of an install that leaves the volume as it is. -/
theorem Inv.of_goto (h : b.Inv s) {phase : Phase β} {holder : Option ι}
    (hholder : holder = s.holder ∨ holder = some i ∧ s.holder = none ∨
      holder = none ∧ s.holder = some i)
    (hlock : phase.Holding → holder = some i) (hfit : b.Fit s.volume i phase) :
    b.Inv { goto s i phase with holder } := by
  constructor
  · intro j hj
    dsimp only at hj ⊢
    rw [phase_goto] at hj
    split at hj
    · rename_i heq
      subst heq
      exact hlock hj
    · rename_i hne
      have hheld := h.lock j hj
      rcases hholder with rfl | ⟨rfl, hnone⟩ | ⟨rfl, hsome⟩
      · exact hheld
      · rw [hnone] at hheld
        cases hheld
      · rw [hsome] at hheld
        exact absurd (Option.some.inj hheld).symm hne
  · exact h.volume
  · intro j
    dsimp only
    rw [phase_goto]
    split
    · rename_i heq
      subst heq
      exact hfit
    · exact h.fit j

theorem Inv.of_leave (h : b.Inv s) {phase : Phase β} (hidle : ¬phase.Holding)
    (hfit : b.Fit s.volume i phase) : b.Inv (leave s i phase) := by
  apply h.of_goto _ (fun hholding => absurd hholding hidle) hfit
  split
  · exact .inr (.inr ⟨rfl, by assumption⟩)
  · exact .inl rfl

omit [DecidableEq ι] in
/-- A firm install uses nothing but a volume that is kept. -/
theorem Fit.hit {volume : Option (Disk β)} {bytes : Option β}
    (h : b.Fit volume i (.reading bytes))
    (hhit : b.judge (b.ignoreScripts i) bytes volume = .hit) (hfirm : b.Firm i) :
    b.Secured volume := by
  cases bytes with
  | none => cases hhit
  | some bytes =>
    apply h.resolve_left
    exact fun hharmless => hharmless.judge hfirm _ hhit

omit [DecidableEq ι] in
/-- What is read of the marker, at any time. -/
theorem Inv.fit_read (h : b.Inv s) : b.Fit s.volume i (.reading (s.volume.bind marker)) := by
  cases hvolume : s.volume with
  | none => trivial
  | some tree =>
    rw [Option.bind_some]
    cases hmarker : marker tree with
    | none => trivial
    | some bytes =>
      rcases h.volume tree hvolume with hkept | hloose
      · exact .inr ⟨tree, rfl, hkept⟩
      · exact .inl (hloose bytes hmarker)

omit [DecidableEq ι] in
theorem Inv.of_unlink (h : b.Inv s) (hcodec : ∀ m, b.parse (b.render m) = some m)
    (hworking : (s.phase i).Working) {volume : Option (Disk β)}
    (hunlink : Unlink s.volume volume) : b.Inv { s with volume } := by
  obtain ⟨tree, hvolume⟩ : ∃ tree, s.volume = some tree := by
    cases hsome : s.volume with
    | none =>
      rw [hsome] at hunlink
      cases hunlink
    | some tree => exact ⟨tree, rfl⟩
  have hopen := (h.fit i).working hworking
  have hloose : ∀ tree', volume = some tree' → b.Loose tree' := by
    intro tree' hsome
    rw [hvolume] at hunlink
    exact ((h.volume tree hvolume).resolve_left (hopen tree hvolume)).fewer (hunlink.fewer hsome)
  constructor
  · exact h.lock
  · exact fun tree' hsome => .inr (hloose tree' hsome)
  · intro j
    apply (h.fit j).change hopen
    exact fun _ tree' hsome hkept => absurd (hloose tree' hsome) (hkept.not_loose hcodec)

omit [DecidableEq ι] in
/-- The only one that is at work has the lock, so all others are idle. -/
theorem Inv.idle (h : b.Inv s) (hworking : (s.phase i).Working) {j : ι} (hne : j ≠ i) :
    ¬(s.phase j).Working := by
  intro hj
  have hi := h.lock i hworking.holding
  rw [h.lock j hj.holding] at hi
  exact hne (Option.some.inj hi)

omit [DecidableEq ι] in
theorem Inv.idle_of_free (h : b.Inv s) (hfree : s.holder = none) : ¬(s.phase i).Working := by
  intro hworking
  have hheld := h.lock i hworking.holding
  rw [hfree] at hheld
  cases hheld

theorem Inv.of_rename (h : b.Inv s) (hcodec : ∀ m, b.parse (b.render m) = some m)
    (hphase : s.phase i = .publishing tree) :
    b.Inv { leave s i (.returned false) with volume := some tree } := by
  have hworking := working_of (.inr ⟨tree, hphase⟩)
  have hfit := h.fit i
  rw [hphase] at hfit
  obtain ⟨hopen, built, hbuilt, hpublished⟩ := hfit
  have hnew := kept_or_loose hcodec hbuilt hpublished
  have hphases : ∀ j, (leave s i (.returned false)).phase j =
      if j = i then .returned false else s.phase j := phase_goto s i _
  constructor
  · intro j hj
    dsimp only at hj ⊢
    rw [hphases] at hj
    split at hj
    · cases hj
    · rename_i hne
      have hheld := h.lock j hj
      rw [h.lock i hworking.holding] at hheld
      exact absurd (Option.some.inj hheld).symm hne
  · intro tree' hsome
    cases hsome
    exact hnew.imp_right And.right
  · intro j
    dsimp only
    rw [hphases]
    split
    · rename_i heq
      subst heq
      exact fun hfirm => ⟨tree, rfl, hnew.resolve_right fun hloose => hloose.1 hfirm⟩
    · rename_i hne
      -- nothing that is known of the others rests on the volume that was there
      exact (h.fit j).change hopen fun hj => absurd hj (h.idle hworking hne)

theorem Inv.step (h : b.Inv s) (hcodec : ∀ m, b.parse (b.render m) = some m)
    (hstep : b.Step s i s') : b.Inv s' := by
  cases hstep with
  | read hphase =>
    apply h.of_goto (.inl rfl)
    · exact fun hholding => absurd hholding id
    · exact h.fit_read
  | look bytes hphase =>
    have hfit := h.fit i
    rw [hphase] at hfit
    apply h.of_goto (.inl rfl)
    · intro hholding
      cases hlook : b.judge (b.ignoreScripts i) bytes s.volume <;> rw [hlook] at hholding <;>
        cases hholding
    · cases hlook : b.judge (b.ignoreScripts i) bytes s.volume with
      | hit => exact hfit.hit hlook
      | stale => trivial
      | missing => trivial
  | lock stale hphase hfree =>
    apply h.of_goto (.inr (.inl ⟨rfl, hfree⟩))
    · exact fun _ => rfl
    · trivial
  | lookAgain stale hphase hhit => exact h.of_leave id (h.fit_read.hit hhit)
  | begin stale hphase hmiss =>
    -- the look under the lock would have been a hit
    have hopen : b.Open s.volume := by
      intro tree hvolume hkept
      rw [hvolume] at hmiss
      exact hmiss (hkept.look hcodec i)
    apply h.of_goto (.inl rfl)
    · intro _
      apply h.lock i
      rw [hphase]
      trivial
    · split
      · exact hopen
      · exact hopen
  | cleared hphase =>
    have hworking := working_of (.inl hphase)
    apply h.of_goto (.inl rfl)
    · exact fun _ => h.lock i hworking.holding
    · exact (h.fit i).working hworking
  | build tree hphase hbuilt published hpublished =>
    have hworking : (s.phase i).Working := by
      rw [hphase]
      trivial
    apply h.of_goto (.inl rfl)
    · exact fun _ => h.lock i hworking.holding
    · exact ⟨(h.fit i).working hworking, tree, hbuilt, hpublished⟩
  | unlink volume hphase hunlink => exact h.of_unlink hcodec (working_of hphase) hunlink
  | rename tree hphase hgone => exact h.of_rename hcodec hphase
  | die hphase => exact h.of_leave id trivial

/-- The invariant holds in every state that is reached. -/
theorem inv_of_reachable (hcodec : ∀ m, b.parse (b.render m) = some m)
    (h : b.protocol.Reachable s) : b.Inv s := by
  apply h.invariant (I := b.Inv)
  · rintro s ⟨hvolume, hholder, hphase⟩
    constructor
    · intro i hi
      rw [hphase i] at hi
      cases hi
    · intro tree hsome
      rcases hvolume tree hsome with ⟨i, built, hbuilt, hpublished⟩ | houtdated
      · exact (kept_or_loose hcodec hbuilt hpublished).imp_right And.right
      · right
        intro bytes hmarker m hparse
        rcases houtdated bytes m hmarker hparse with hgraph | hlayout
        · exact .inl hgraph
        · exact .inr (.inl hlayout)
    · intro i
      rw [hphase i]
      trivial
  · exact fun s i s' hinv _ hstep => hinv.step hcodec hstep

/-- A kept volume stays as it is. -/
theorem Inv.volume_step (h : b.Inv s) (hvolume : s.volume = some tree) (hkept : b.Kept tree)
    (hstep : b.Step s i s') : s'.volume = some tree := by
  cases hstep with
  | unlink volume hphase hunlink =>
    exact absurd hkept ((h.fit i).working (working_of hphase) tree hvolume)
  | rename staged hphase hgone =>
    exact absurd hkept ((h.fit i).working (working_of (.inr ⟨staged, hphase⟩)) tree hvolume)
  | _ => exact hvolume

theorem Inv.volume_later (h : b.Inv s) (hcodec : ∀ m, b.parse (b.render m) = some m)
    (hvolume : s.volume = some tree) (hkept : b.Kept tree) (hlater : b.Later s s') :
    b.Inv s' ∧ s'.volume = some tree := by
  induction hlater with
  | refl => exact ⟨h, hvolume⟩
  | tail _ hstep ih =>
    obtain ⟨i, hstep⟩ := hstep
    exact ⟨ih.1.step hcodec hstep, ih.1.volume_step ih.2 hkept hstep⟩

/-- A look at the volume, when nothing happens in between. -/
theorem later_look (hstart : s.phase i = .start) {look : Look}
    (hlook : b.look (b.ignoreScripts i) s.volume = look) :
    b.Later s (goto s i (afterLook look)) := by
  have hjudge := Step.look (b := b) (s := goto s i (.reading (s.volume.bind marker))) _
    (Function.update_self i _ _)
  have hread := Relation.ReflTransGen.single (r := fun s s' => ∃ i, b.Step s i s')
    ⟨i, Step.read (b := b) hstart⟩
  have hlast := hread.tail ⟨i, hjudge⟩
  simp only [goto, Function.update_idem] at hlast
  rw [← hlook]
  exact hlast

end

/-- However installs with and without scripts, failures and crashes interleave: what an
install has that runs its scripts, or that no install with scripts shares, is a whole volume
that stays as it is and that every install will use. -/
theorem returned_volume_stays {b : Builders ι β} (hcodec : ∀ m, b.parse (b.render m) = some m)
    {s : State ι β} (h : b.protocol.Reachable s) {i : ι} {cached : Bool}
    (hreturned : s.phase i = .returned cached)
    (hscripts : b.ignoreScripts i = false ∨ ∀ j, b.ignoreScripts j = true) :
    ∃ j built tree, Built built ∧ b.published j built = some tree ∧
      (b.ignoreScripts j = true → b.ignoreScripts i = true) ∧
      ∀ s', b.Later s s' → s'.volume = some tree ∧
        ∀ k, b.look (b.ignoreScripts k) s'.volume = .hit := by
  have hinv := inv_of_reachable hcodec h
  have hfit := hinv.fit i
  rw [hreturned] at hfit
  obtain ⟨tree, hvolume, hkept⟩ := hfit hscripts
  obtain ⟨j, built, hfirm, hbuilt, hpublished⟩ := id hkept
  refine ⟨j, built, tree, hbuilt, hpublished, ?_, ?_⟩
  · intro hj
    rcases hfirm with hran | hall
    · rw [hran] at hj
      cases hj
    · exact hall i
  · intro s' hlater
    have hstays := (hinv.volume_later hcodec hvolume hkept hlater).2
    refine ⟨hstays, fun k => ?_⟩
    rw [hstays]
    exact hkept.look hcodec k

/-! ## One package, and an install of each kind -/

/-- The install `false` runs scripts, the install `true` does not. -/
def twoInstalls : Builders Bool (Option VolumeMeta) :=
  ⟨40, id, some, lit "c0ffee", id⟩

def onePackage : Disk (Option VolumeMeta) :=
  (((∅ : Disk (Option VolumeMeta)).insert [nodeModules] .dir).insert [lit "a", nodeModules]
    .dir).insert [lit "index.js", lit "a", nodeModules] (.file none)

def oneVolume (i : Bool) : Disk (Option VolumeMeta) :=
  onePackage.insert [metaFile]
    (.file (some ⟨lit "c0ffee", 12, [⟨lit "a", lit "tree-volume-v1:a"⟩], i⟩))

theorem built_onePackage : Built onePackage := by
  constructor
  · decide +kernel
  · intro name target hlink
    simp only [onePackage, get_insert] at hlink
    split at hlink
    · cases hlink
    · split at hlink
      · cases hlink
      · split at hlink
        · cases hlink
        · simp at hlink

theorem published_onePackage (i : Bool) :
    twoInstalls.published i onePackage = some (oneVolume i) := by
  have hperm : (names onePackage [nodeModules]).Perm [lit "a"] := by
    rw [List.perm_ext_iff_of_nodup (PackageTree.names_nodup _ _) (List.nodup_singleton _)]
    intro name
    rw [PackageTree.mem_names, List.mem_singleton]
    simp only [onePackage, get_insert]
    constructor
    · intro hthere
      split at hthere
      · rename_i heq
        cases heq
      · split at hthere
        · rename_i heq
          cases heq
          rfl
        · simp at hthere
    · rintro rfl
      simp
  have hnames := List.perm_singleton.mp hperm
  unfold Builders.published computeEntryIdentities
  rw [hnames, isDir_of_get built_onePackage.dir]
  rfl

def atStart (i : Bool) : State Bool (Option VolumeMeta) :=
  ⟨some (oneVolume i), none, fun _ => .start⟩

theorem reachable_atStart (i : Bool) : twoInstalls.protocol.Reachable (atStart i) := by
  apply Protocol.Reachable.start
  refine ⟨?_, rfl, fun _ => rfl⟩
  intro tree hsome
  cases hsome
  exact .inl ⟨i, onePackage, built_onePackage, published_onePackage i⟩

theorem returned_volume_stays_atStart : ∃ j built tree, Built built ∧
    twoInstalls.published j built = some tree ∧
      (twoInstalls.ignoreScripts j = true → twoInstalls.ignoreScripts false = true) ∧
      ∀ s', twoInstalls.Later (goto (atStart false) false (.returned true)) s' →
        s'.volume = some tree ∧
          ∀ k, twoInstalls.look (twoInstalls.ignoreScripts k) s'.volume = .hit :=
  returned_volume_stays (fun _ => rfl)
    ((reachable_atStart false).run (later_look rfl
      (((marked_published built_onePackage (published_onePackage false)).look built_onePackage
        (fun _ => rfl) false))))
    (show _ = Phase.returned true from rfl) (.inl rfl)

/-! ## What a rebuild can lose -/

section

variable {b : Builders ι β} {s s' s'' : State ι β} {i j k : ι} {built tree : Disk β}

omit [DecidableEq ι] in
theorem mem_keySet {key : Loc} : key ∈ tree.keys.toFinset ↔ tree[key]? ≠ none := by
  rw [List.mem_toFinset, Std.ExtTreeMap.mem_keys]
  simp

omit [DecidableEq ι] in
theorem keySet_remove {key : Loc} (hkey : key ∈ tree.keys.toFinset) :
    (tree.remove key).keys.toFinset ⊂ tree.keys.toFinset := by
  rw [Finset.ssubset_iff_of_subset]
  · refine ⟨key, hkey, ?_⟩
    rw [mem_keySet, get_remove, if_pos List.suffix_rfl]
    exact fun hnot => hnot rfl
  · intro other hother
    rw [mem_keySet] at hother ⊢
    intro hnone
    rcases fewer_remove tree key other with hsame | hgone
    · exact hother (hsame.trans hnone)
    · exact hother hgone

omit [DecidableEq ι] in
/-- Every tree can be removed, one leaf after the other. -/
theorem unlink_all (tree : Disk β) : Relation.ReflTransGen Unlink (some tree) none := by
  induction hsize : tree.keys.toFinset.card using Nat.strong_induction_on generalizing tree with
  | _ n ih =>
    by_cases hempty : ∀ key : Loc, tree[key]? = none
    · exact .single (.root tree hempty)
    · obtain ⟨first, hfirst⟩ := not_forall.mp hempty
      -- nothing is below an object whose path is as long as any
      obtain ⟨key, hkey, hmax⟩ := Finset.exists_max_image tree.keys.toFinset List.length
        ⟨first, mem_keySet.mpr hfirst⟩
      have hleaf : ∀ other, key <:+ other → other ≠ key → tree[other]? = none := by
        intro other hbelow hne
        by_contra hother
        have hlen := hmax other (mem_keySet.mpr hother)
        exact hne (hbelow.eq_of_length_le hlen).symm
      have hsmaller := Finset.card_lt_card (keySet_remove hkey)
      have hrest := ih _ (hsize ▸ hsmaller) (tree.remove key) rfl
      exact .head (.object tree key (mem_keySet.mp hkey) hleaf) hrest

theorem later_unlink {volume volume' : Option (Disk β)} (hphase : s.phase i = .clearing)
    (hremoved : Relation.ReflTransGen Unlink volume volume') :
    b.Later { s with volume } { s with volume := volume' } := by
  induction hremoved with
  | refl => exact .refl
  | tail _ hunlink ih => exact ih.tail ⟨i, .unlink _ (.inl hphase) hunlink⟩

/-- An install that runs scripts comes to remove a volume for which they have not run. -/
theorem later_clearing (hcodec : ∀ m, b.parse (b.render m) = some m) (hstart : s.phase i = .start)
    (hi : b.ignoreScripts i = false) (hfree : s.holder = none) (hbuilt : Built built)
    (hpublished : b.published k built = some tree) (hk : b.ignoreScripts k = true)
    (hvolume : s.volume = some tree) :
    b.Later s { goto s i .clearing with holder := some i } := by
  have hlook : b.look (b.ignoreScripts i) s.volume = .stale := by
    rw [hvolume, (marked_published hbuilt hpublished).look hbuilt hcodec, hi, hk]
    rfl
  have hwaiting : b.Later s (goto s i (.waiting true)) := later_look hstart hlook
  have hlocked : b.Step (goto s i (.waiting true)) i
      { goto s i (.locked true) with holder := some i } := by
    have hstep := Step.lock (b := b) (s := goto s i (.waiting true)) true
      (Function.update_self i _ _) hfree
    simpa only [goto, Function.update_idem] using hstep
  have hclearing : b.Step { goto s i (.locked true) with holder := some i } i
      { goto s i .clearing with holder := some i } := by
    have hstep := Step.begin (b := b) (s := { goto s i (.locked true) with holder := some i }) true
      (Function.update_self i _ _) (by
        show b.look (b.ignoreScripts i) s.volume ≠ .hit
        rw [hlook]
        decide)
    simpa only [goto, Function.update_idem, if_true] using hstep
  exact (hwaiting.tail ⟨i, hlocked⟩).tail ⟨i, hclearing⟩

/-- What is left of the state when an install dies that was at work. -/
theorem die_working (s : State ι β) (i : ι) (volume : Option (Disk β)) :
    b.Step { volume, holder := some i, phase := Function.update s.phase i .clearing } i
      { volume, holder := none, phase := Function.update s.phase i .gone } := by
  have hstep := Step.die (b := b)
    (s := { volume, holder := some i, phase := Function.update s.phase i .clearing }) (i := i)
    (by simp)
  simpa only [leave, goto, Function.update_idem, if_true] using hstep

/-- A volume that serves the installs that ignore scripts stays as long as only they run. -/
theorem served_step (hlook : b.look true (some tree) = .hit) (hignore : b.ignoreScripts k = true)
    (hvolume : s.volume = some tree)
    (hidle : ∀ k, b.ignoreScripts k = true → ¬(s.phase k).Working) (hstep : b.Step s k s') :
    s'.volume = some tree ∧ ∀ k, b.ignoreScripts k = true → ¬(s'.phase k).Working := by
  have hgoto : ∀ phase : Phase β, ¬phase.Working →
      ∀ j, b.ignoreScripts j = true → ¬((goto s k phase).phase j).Working := by
    intro phase hphase j hj
    rw [phase_goto]
    split
    · exact hphase
    · exact hidle j hj
  cases hstep with
  | read hphase => exact ⟨hvolume, hgoto _ id⟩
  | look bytes hphase =>
    refine ⟨hvolume, hgoto _ ?_⟩
    cases b.judge (b.ignoreScripts k) bytes s.volume <;> exact id
  | lock stale hphase hfree => exact ⟨hvolume, hgoto _ id⟩
  | lookAgain stale hphase hhit => exact ⟨hvolume, hgoto _ id⟩
  | begin stale hphase hmiss =>
    rw [hvolume, hignore] at hmiss
    exact absurd hlook hmiss
  | cleared hphase => exact absurd (working_of (.inl hphase)) (hidle k hignore)
  | build built hphase hbuilt published hpublished =>
    have hworking : (s.phase k).Working := by
      rw [hphase]
      trivial
    exact absurd hworking (hidle k hignore)
  | unlink volume hphase hunlink => exact absurd (working_of hphase) (hidle k hignore)
  | rename staged hphase hgone =>
    exact absurd (working_of (.inr ⟨staged, hphase⟩)) (hidle k hignore)
  | die hphase => exact ⟨hvolume, hgoto _ id⟩

end

/-- A whole volume that was built without scripts, and that other projects use, is gone when
an install that runs them fails: it is removed before its replacement is there. -/
theorem rebuild_loses_volume {b : Builders ι β} (hcodec : ∀ m, b.parse (b.render m) = some m)
    {s : State ι β} (hfree : s.holder = none) {i k : ι} {built tree : Disk β}
    (hbuilt : Built built) (hpublished : b.published k built = some tree)
    (hvolume : s.volume = some tree) (hk : b.ignoreScripts k = true) (hstart : s.phase i = .start)
    (hi : b.ignoreScripts i = false) :
    ∃ s', b.Later s s' ∧ s'.volume = none ∧ s'.holder = none ∧ s'.phase i = .gone ∧
      ∀ j, j ≠ i → s'.phase j = s.phase j := by
  have hclearing := later_clearing hcodec hstart hi hfree hbuilt hpublished hk hvolume
  have hremoved : Relation.ReflTransGen Unlink s.volume none := by
    rw [hvolume]
    exact unlink_all tree
  have hunlinked := later_unlink (b := b) (s := { goto s i .clearing with holder := some i })
    (i := i) (Function.update_self i _ _) hremoved
  refine ⟨{ volume := none, holder := none, phase := Function.update s.phase i .gone },
    (hclearing.trans hunlinked).tail ⟨i, die_working s i none⟩, rfl, rfl,
    Function.update_self i _ _, ?_⟩
  exact fun j hj => Function.update_of_ne hj _ _

theorem rebuild_loses_volume_atStart : ∃ s', twoInstalls.Later (atStart true) s' ∧
    s'.volume = none ∧ s'.holder = none ∧ s'.phase false = .gone ∧
      ∀ j, j ≠ false → s'.phase j = (atStart true).phase j :=
  rebuild_loses_volume (fun _ => rfl) rfl built_onePackage (published_onePackage true) rfl rfl rfl
    rfl

/-- When such an install dies while it removes the volume, what is left of it is returned to
installs that ignore scripts, as long as only they run. -/
theorem remains_are_served {b : Builders ι β} (hcodec : ∀ m, b.parse (b.render m) = some m)
    {s : State ι β} (h : b.protocol.Reachable s) (hfree : s.holder = none) {i j k : ι}
    {built tree : Disk β} (hbuilt : Built built) (hpublished : b.published k built = some tree)
    (hvolume : s.volume = some tree) (hk : b.ignoreScripts k = true) (hstart : s.phase i = .start)
    (hi : b.ignoreScripts i = false) (hj : s.phase j = .start) (hignore : b.ignoreScripts j = true)
    {key : Loc} (hinside : 2 < key.length) (hthere : tree[key]? ≠ none)
    (hleaf : ∀ other, key <:+ other → other ≠ key → tree[other]? = none) :
    ∃ s', b.Later s s' ∧ s'.phase i = .gone ∧ s'.phase j = .returned true ∧
      ∀ s'', Relation.ReflTransGen (fun s s' => ∃ k, b.ignoreScripts k = true ∧ b.Step s k s')
        s' s'' → s''.volume = some (tree.remove key) ∧ b.look true s''.volume = .hit := by
  have hne : j ≠ i := by
    rintro rfl
    rw [hi] at hignore
    cases hignore
  have hlook : b.look true (some (tree.remove key)) = .hit := by
    rw [((marked_published hbuilt hpublished).remove hinside).look hbuilt hcodec, Bool.or_true]
    rfl
  have hclearing := later_clearing hcodec hstart hi hfree hbuilt hpublished hk hvolume
  have hremoved : Relation.ReflTransGen Unlink s.volume (some (tree.remove key)) := by
    rw [hvolume]
    exact .single (.object tree key hthere hleaf)
  have hunlinked := later_unlink (b := b) (s := { goto s i .clearing with holder := some i })
    (i := i) (Function.update_self i _ _) hremoved
  have hdied := die_working (b := b) s i (some (tree.remove key))
  have hreturned := later_look (b := b) (i := j)
    (s := { volume := some (tree.remove key), holder := none,
            phase := Function.update s.phase i .gone })
    (by simp [hne, hj]) (show b.look (b.ignoreScripts j) _ = Look.hit by rw [hignore]; exact hlook)
  refine ⟨_, ((hclearing.trans hunlinked).tail ⟨i, hdied⟩).trans hreturned, ?_, ?_, ?_⟩
  · simp [goto, hne.symm]
  · simp only [goto, Function.update_self]
    rfl
  · intro s'' hlater
    have hstays : s''.volume = some (tree.remove key) ∧
        ∀ k, b.ignoreScripts k = true → ¬(s''.phase k).Working := by
      induction hlater with
      | refl =>
        refine ⟨rfl, fun k _ => ?_⟩
        simp only [goto, Function.update_apply]
        split
        · exact id
        · split
          · exact id
          · exact (inv_of_reachable hcodec h).idle_of_free hfree
      | tail _ hstep ih =>
        obtain ⟨k, hk, hstep⟩ := hstep
        exact served_step hlook hk ih.1 ih.2 hstep
    rw [hstays.1]
    exact ⟨rfl, hlook⟩

theorem remains_are_served_atStart : ∃ s', twoInstalls.Later (atStart true) s' ∧
    s'.phase false = .gone ∧ s'.phase true = .returned true ∧
      ∀ s'', Relation.ReflTransGen
        (fun s s' => ∃ k, twoInstalls.ignoreScripts k = true ∧ twoInstalls.Step s k s') s' s'' →
          s''.volume = some ((oneVolume true).remove [lit "index.js", lit "a", nodeModules]) ∧
            twoInstalls.look true s''.volume = .hit := by
  apply remains_are_served (fun _ => rfl) (reachable_atStart true) rfl built_onePackage
    (published_onePackage true) rfl rfl rfl rfl rfl rfl
  · decide
  · decide +kernel
  · intro other hbelow hne
    have hlen := hbelow.length_le
    simp only [oneVolume, onePackage, get_insert]
    split
    · rename_i heq
      subst heq
      simp at hlen
    · split
      · rename_i heq
        exact absurd heq.symm hne
      · split
        · rename_i heq
          subst heq
          simp at hlen
        · split
          · rename_i heq
            subst heq
            simp at hlen
          · simp

end Builders
end GraphVolume
end Bpm
