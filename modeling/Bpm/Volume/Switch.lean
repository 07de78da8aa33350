import Bpm.Volume.Attach

/-!
# Switching a project from one view to the next

An install attaches the new view and then reconciles the previous one with it.  This is
safe when no entry of the previous view lies below a link of the new one, and what has
links of the new one below it was itself a link.  Without this the previous view's entries
lead into the shared volume, or a directory of the new view is taken for one of the old.
-/

namespace Bpm
namespace ProjectView

open Text FileTree Disk Reconciling

namespace Attaching

variable {β : Type} (a : Attaching)

/-- The reconciliation with a view whose entries were recorded. -/
def reconciling (fingerprint : Disk β → Str) (prior : Option Loc) (owned : List ManagedEntry) :
    Reconciling β :=
  ⟨a.maxLinks, fingerprint, a.root, prior, owned.map ManagedEntry.path⟩

/-- Attach the new view, and reconcile the previous one if anything was recorded of it. -/
def attachAndReconcile (fingerprint : Disk β → Str) (prior : Option Loc) (old : List ManagedEntry)
    (d : Disk β) : Except Loc (Attached β × Reconciled β) := do
  let s ← a.attachProjectRelay d
  return (s,
    if old.isEmpty then ⟨s.disk, 0, []⟩
    else (a.reconciling fingerprint prior s.owned).reconcileProjectView s.disk old)

/-- Where an entry of the previous view is in the project. -/
def placed (e : ManagedEntry) : Loc := placeOf e.path ++ a.root

/-- The entries of the previous view that are not part of the new one. -/
def IsOld (d : Disk β) (old : List ManagedEntry) (e : ManagedEntry) : Prop :=
  e ∈ old ∧ ∀ link ∈ a.viewLinks d, e.path ≠ (recordOf link).path

/-- No link was on the way to an entry of the previous view, none of the new one is now, and
what has a link of the new view below it was a link. -/
structure Compatible (d : Disk β) (old : List ManagedEntry) : Prop where
  direct : ∀ e, a.IsOld d old e → ∀ loc target, Above [] (a.placed e) loc →
    d[loc]? ≠ some (.link target)
  outside : ∀ e, a.IsOld d old e → ∀ link ∈ a.viewLinks d, ¬link.1 ++ a.projNm <:+ a.placed e
  around : ∀ e, a.IsOld d old e → ∀ link ∈ a.viewLinks d, a.placed e <:+ link.1 ++ a.projNm →
    e.mode = lit "relay" ∨ e.mode = lit "direct"

/-- The reconciliation after the attachment of the view. -/
def afterView (fingerprint : Disk β → Str) (prior : Option Loc) (d : Disk β) : Reconciling β :=
  a.reconciling fingerprint prior ((a.viewLinks d).map recordOf)

section

variable {a} {d : Disk β} {old : List ManagedEntry} {e : ManagedEntry}
  {fingerprint : Disk β → Str} {prior : Option Loc}

theorem Ready.attachAndReconcile_eq (h : a.Ready d) (fingerprint : Disk β → Str)
    (prior : Option Loc) (old : List ManagedEntry) :
    ∃ s, s.disk = a.view d ∧ s.owned = (a.viewLinks d).map recordOf ∧
      a.attachAndReconcile fingerprint prior old d =
        .ok (s, (a.afterView fingerprint prior d).reconcileProjectView (a.view d) old) := by
  obtain ⟨created, unchanged, _, hattach⟩ := h.attachProjectRelay_eq
  refine ⟨⟨a.view d, created, unchanged, (a.viewLinks d).map recordOf⟩, rfl, rfl, ?_⟩
  rw [attachAndReconcile, hattach]
  cases old with
  | nil =>
    rw [reconcileProjectView, deepestFirst, List.mergeSort_nil]
    rfl
  | cons e old => rfl

theorem isOld_of_stale (he : e ∈ old) (hstale : Stale (a.afterView fingerprint prior d) e) :
    a.IsOld d old e := by
  apply And.intro he
  intro link hlink heq
  apply hstale.undesired
  show e.path ∈ ((a.viewLinks d).map recordOf).map ManagedEntry.path
  rw [heq]
  exact List.mem_map_of_mem (List.mem_map_of_mem hlink)

theorem Compatible.direct_view (h : a.Compatible d old) :
    Direct (a.afterView fingerprint prior d) (a.view d) old := by
  intro e he hstale loc target habove hget
  have hold := isOld_of_stale he hstale
  rcases viewLinks_or_before hget with ⟨link, hlink, rfl⟩ | hbefore
  · apply h.outside e hold link hlink
    have hsuffix := habove.1.2.2
    rwa [List.append_nil] at hsuffix
  · exact h.direct e hold loc target habove hbefore

/-- After a switch from a compatible view all links of the new view are in place, and nothing
outside the project's `node_modules` has changed. -/
theorem Ready.attachAndReconcile_keeps (h : a.Ready d) (hold : a.Compatible d old) :
    ∃ s out, a.attachAndReconcile fingerprint prior old d = .ok (s, out) ∧
      s.owned = (a.viewLinks d).map recordOf ∧
      (∀ link ∈ a.viewLinks d, out.disk[link.1 ++ a.projNm]? = some (.link link.2)) ∧
      ∀ key : Loc, ¬a.projNm <:+ key → out.disk[key]? =
        if Way [] a.projNm key ∧ d[key]? = none then some .dir else d[key]? := by
  obtain ⟨s, hdisk, howned, heq⟩ := h.attachAndReconcile_eq fingerprint prior old
  refine ⟨s, _, heq, howned, ?_, ?_⟩
  · intro link hlink
    have hget := get_viewLinks hlink
    by_contra hchanged
    rw [← hget] at hchanged
    obtain ⟨_, _, e, he, hstale, ⟨d', hfewer, hrecorded⟩, hlost⟩ :=
      lost_of_changed h.around_view.closed hold.direct_view _ hchanged
    have hisold := isOld_of_stale he hstale
    cases hlost with
    | inside hbelow =>
      -- the entry has the link below it, so it is a directory of the new view
      have hmode := hold.around e hisold link hlink hbelow
      have hne : a.placed e ≠ link.1 ++ a.projNm := fun heq =>
        hold.outside e hisold link hlink (heq ▸ List.suffix_rfl)
      have hdir := h.around_view.closed.dir_above (by rw [hget]; simp) List.nil_suffix
        (full_ne_nil (a.afterView fingerprint prior d) e) hbelow hne
      cases hrecorded with
      | relay target _ _ hlink' =>
        have hboth := hfewer.get hlink'
        rw [hdir] at hboth
        cases hboth
      | tree live hmode' =>
        rcases hmode with hmode | hmode
        · rw [hmode] at hmode'
          exact absurd hmode' (by decide)
        · rw [hmode] at hmode'
          exact absurd hmode' (by decide)
      | copy live volume source name hmode' =>
        rcases hmode with hmode | hmode
        · rw [hmode] at hmode'
          exact absurd hmode' (by decide)
        · rw [hmode] at hmode'
          exact absurd hmode' (by decide)
    | around hscope hat hdir =>
      -- a link is no scope directory
      unfold isDir at hdir
      rw [hget] at hdir
      simp [projNm] at hdir
  · intro key hkey
    rw [← get_view_frame (a := a) (d := d) fun name _ hbelow =>
      hkey ((List.suffix_cons name _).trans hbelow)]
    by_contra hchanged
    obtain ⟨_, ⟨rel, _, rfl⟩, _⟩ :=
      lost_of_changed h.around_view.closed hold.direct_view key hchanged
    exact hkey (List.suffix_append rel _)

end

/-- Paths of a project and a volume that are there beside each other. -/
theorem way_pair {name : Str} {loc : Loc} (hway : Way [] [nodeModules, name] loc) :
    loc = [nodeModules, name] ∨ loc = [name] := by
  rw [way_cons, way_cons] at hway
  rcases hway with rfl | rfl | hnil
  · exact .inl rfl
  · exact .inr rfl
  · exact absurd hnil not_way_nil

/-- A project with a relay of the previous view, and a volume with another package. -/
def movedOn : Disk Nat :=
  (onePackage.insert [nodeModules, lit "p"] .dir).insert [lit "b", nodeModules, lit "p"]
    (.link (lit "/p"))

theorem ready_movedOn : oneRelay.Ready movedOn where
  closed := (ready_onePackage.closed.insert (by decide) (.inr rfl)).insert (by decide)
    (.inl (by decide))
  project loc hway := by
    rcases way_pair hway with rfl | rfl
    · exact .inr (by decide)
    · exact .inr (by decide)
  volume loc hway := by
    rcases way_pair hway with rfl | rfl
    · decide
    · decide
  entries name target := by
    have hget : movedOn[name :: oneRelay.volNm]? = onePackage[name :: oneRelay.volNm]? := by
      rw [movedOn, get_insert, if_neg, get_insert, if_neg]
      · simp [volNm, oneRelay]
      · simp [volNm, oneRelay, lit]
    rw [hget]
    exact ready_onePackage.entries name target
  apart := by decide
  outside := by decide
  bin := by
    intro hlive
    exact absurd hlive (by decide)

def priorRelay : ManagedEntry := relayOf (lit "node_modules/b") (lit "/p")

theorem viewLinks_movedOn :
    oneRelay.viewLinks movedOn = [([lit "a"], lit "/v/node_modules/a")] := by decide +kernel

theorem placed_priorRelay : oneRelay.placed priorRelay = [lit "b", nodeModules, lit "p"] := by
  decide

theorem compatible_movedOn : oneRelay.Compatible movedOn [priorRelay] where
  direct e he loc target habove := by
    obtain rfl := List.mem_singleton.mp he.1
    rw [placed_priorRelay, above_cons] at habove
    rcases way_pair habove with rfl | rfl
    · rw [show movedOn[[nodeModules, lit "p"]]? = some .dir by decide]
      simp
    · rw [show movedOn[[lit "p"]]? = some .dir by decide]
      simp
  outside e he link hlink := by
    obtain rfl := List.mem_singleton.mp he.1
    rw [viewLinks_movedOn] at hlink
    obtain rfl := List.mem_singleton.mp hlink
    decide
  around e he link hlink hsuffix := by
    obtain rfl := List.mem_singleton.mp he.1
    exact .inl rfl

/-- The relay of the previous view gives way to that of the new one. -/
theorem attachAndReconcile_keeps_movedOn :
    ∃ s out, oneRelay.attachAndReconcile (fun _ => []) none [priorRelay] movedOn = .ok (s, out) ∧
      s.owned = (oneRelay.viewLinks movedOn).map recordOf ∧
      (∀ link ∈ oneRelay.viewLinks movedOn,
        out.disk[link.1 ++ oneRelay.projNm]? = some (.link link.2)) ∧
      ∀ key : Loc, ¬oneRelay.projNm <:+ key → out.disk[key]? =
        if Way [] oneRelay.projNm key ∧ movedOn[key]? = none then some .dir else movedOn[key]? :=
  ready_movedOn.attachAndReconcile_keeps compatible_movedOn

/-! ## What goes wrong below a relay -/

section

variable {a} {d : Disk β} {old : List ManagedEntry} {fingerprint : Disk β → Str}
  {prior : Option Loc}

/-- A name as a file system allows it. -/
def FileName (name : Str) : Prop :=
  name ≠ [] ∧ '/' ∉ name ∧ name ≠ lit "." ∧ name ≠ lit ".."

instance (name : Str) : Decidable (FileName name) := by
  unfold FileName
  infer_instance

theorem FileName.segment {name : Str} (h : FileName name) : segment name = some (.normal name) := by
  obtain ⟨hne, _, hdot, hdots⟩ := h
  rw [FileTree.segment, if_neg, if_neg]
  · exact hdots
  · rintro (heq | heq)
    · exact hne heq
    · exact hdot heq

section Bin

variable {links : Nat} {bin target : Str} (h : a.Ready d) (hbin : FileName bin)
  (hrelayed : a.slot d (lit ".bin") = .whole (display (lit ".bin" :: a.volNm)))
  (hvolume : d[bin :: lit ".bin" :: a.volNm]? = some (.link target))

include h hvolume

end Bin

end

section

variable {a} {d : Disk β} {old : List ManagedEntry} {fingerprint : Disk β → Str}
  {prior : Option Loc}

section BinTree

variable {mode : Str} (h : a.Ready d) (hlive : a.hasLiveBins)
  (hin : lit ".bin" ∈ names d a.volNm)

include hlive hin

include h

end BinTree

end

/-- A volume whose one command is that of a linked package, and a project with a copy. -/
def copied : Disk Nat :=
  (((((((∅ : Disk Nat).insert [lit "p"] .dir).insert [nodeModules, lit "p"] .dir).insert
    [lit ".bin", nodeModules, lit "p"] .dir).insert
    [lit "c", lit ".bin", nodeModules, lit "p"] (.link (lit "../w/tool"))).insert
    [lit "v"] .dir).insert [nodeModules, lit "v"] .dir |>.insert
    [lit ".bin", nodeModules, lit "v"] .dir).insert
    [lit "c", lit ".bin", nodeModules, lit "v"] (.link (lit "../w/tool"))

def linked : Attaching :=
  ⟨8, [lit "p"], [lit "v"], [⟨lit "node_modules/w", [lit "w", lit "p"], [(lit "c", lit "tool")]⟩]⟩

end Attaching
end ProjectView
end Bpm
