import Mathlib

/-!
# Depth-first listings

A graph is listed as a tree, depth first.  A vertex is listed wherever an edge leads to it,
and expanded, with what its edges lead to, unless a limit of the depth is reached, the
vertex is on the way from the root, or it was expanded before.  A vertex that is expanded
close to the limit is not expanded again nearer to the root, so with a limit the listing
depends on its order.
-/

namespace Bpm
namespace Listing

inductive ListTree (β : Type)
  | node (label : β) (children : List (ListTree β))

variable {α β γ : Type}

mutual

def ListTree.map (f : β → γ) : ListTree β → ListTree γ
  | .node label children => .node (f label) (mapAll f children)

def mapAll (f : β → γ) : List (ListTree β) → List (ListTree γ)
  | [] => []
  | tree :: trees => tree.map f :: mapAll f trees

end

mutual

/-- What a tree lists and how deep, a node before what is below it. -/
def ListTree.positions (key : β → α) (depth : Nat) : ListTree β → List (α × Nat)
  | .node label children => (key label, depth) :: positionsAll key (depth + 1) children

def positionsAll (key : β → α) (depth : Nat) : List (ListTree β) → List (α × Nat)
  | [] => []
  | tree :: trees => tree.positions key depth ++ positionsAll key depth trees

end

/-- A graph with labels for the vertices that exist. -/
structure LabelledGraph (α β : Type) where
  label : α → Option β
  edges : α → List α

def LabelledGraph.map (f : β → γ) (g : LabelledGraph α β) : LabelledGraph α γ where
  label target := (g.label target).map f
  edges := g.edges

/-- The trees for targets that come one after the other. -/
def buildAll (visit : α → List α → Option (Option (ListTree β) × List α)) :
    List α → List α → Option (List (ListTree β) × List α)
  | [], visited => some ([], visited)
  | target :: rest, visited => do
      let (child, visited) ← visit target visited
      let (children, visited) ← buildAll visit rest visited
      return (child.toList ++ children, visited)

section Build

variable [DecidableEq α] (g : LabelledGraph α β) (all : Bool)

/-- The tree for one target, with the levels that remain, the vertices on the way to it and
those that were expanded.  `fuel` bounds the length of the way. -/
def build (fuel : Nat) (remaining : Option Nat) (stack : List α) (target : α)
    (visited : List α) : Option (Option (ListTree β) × List α) :=
  match g.label target with
  | none => some (none, visited)
  | some label =>
      if remaining = some 0 ∨ target ∈ stack ∨ all = false ∧ target ∈ visited then
        some (some (.node label []), visited)
      else
        match fuel with
        | 0 => none
        | fuel + 1 => do
            let (children, visited) ←
              buildAll (build fuel (remaining.map (· - 1)) (target :: stack)) (g.edges target)
                (target :: visited)
            return (some (.node label children), visited)

/-- The trees below a root whose edges lead to `roots`. -/
def listing (fuel : Nat) (limit : Option Nat) (roots : List α) : Option (List (ListTree β)) :=
  (buildAll (build g all fuel limit []) roots []).map Prod.fst

end Build

/-! ## What is within the limit -/

/-- A vertex at this depth may be expanded. -/
def below (limit : Option Nat) (depth : Nat) : Bool := limit.all (depth < ·)

def Within (limit : Option Nat) (depth : Nat) : Prop := ∀ d ∈ limit, depth ≤ d

/-- The first place above the limit at which a vertex is listed. -/
def First [DecidableEq α] (limit : Option Nat) (listed : List (α × Nat)) (p : α) (depth : Nat) :
    Prop :=
  listed.find? (fun e => e.1 = p && below limit e.2) = some (p, depth)

/-- In reach of the roots over existing vertices, by so many edges. -/
inductive InSteps (g : LabelledGraph α β) (roots : List α) : Nat → α → Prop
  | root {p : α} (hroot : p ∈ roots) (hlabel : (g.label p).isSome = true) : InSteps g roots 0 p
  | edge {n : Nat} {p q : α} (hsteps : InSteps g roots n p) (hedge : q ∈ g.edges p)
      (hlabel : (g.label q).isSome = true) : InSteps g roots (n + 1) q

/-- In reach by edges from vertices that are not listed deeper at first. -/
inductive Direct [DecidableEq α] (g : LabelledGraph α β) (roots : List α) (limit : Option Nat)
    (listed : List (α × Nat)) : Nat → α → Prop
  | root {p : α} (hroot : p ∈ roots) (hlabel : (g.label p).isSome = true) :
      Direct g roots limit listed 0 p
  | edge {n : Nat} {p q : α} (hdirect : Direct g roots limit listed n p)
      (hfirst : ∀ depth, First limit listed p depth → depth ≤ n) (hedge : q ∈ g.edges p)
      (hlabel : (g.label q).isSome = true) : Direct g roots limit listed (n + 1) q

/-! ## Labels -/

theorem mapAll_append (f : β → γ) (trees trees' : List (ListTree β)) :
    mapAll f (trees ++ trees') = mapAll f trees ++ mapAll f trees' := by
  induction trees with
  | nil => rfl
  | cons tree trees ih => rw [List.cons_append, mapAll, mapAll, ih, List.cons_append]

theorem mapAll_toList (f : β → γ) (tree : Option (ListTree β)) :
    mapAll f tree.toList = (tree.map (ListTree.map f)).toList := by
  cases tree <;> rfl

theorem positionsAll_append (key : β → α) (depth : Nat) (trees trees' : List (ListTree β)) :
    positionsAll key depth (trees ++ trees') =
      positionsAll key depth trees ++ positionsAll key depth trees' := by
  induction trees with
  | nil => rfl
  | cons tree trees ih =>
      rw [List.cons_append, positionsAll, positionsAll, ih, List.append_assoc]

theorem buildAll_map (f : β → γ) {visit : α → List α → Option (Option (ListTree β) × List α)}
    {visit' : α → List α → Option (Option (ListTree γ) × List α)}
    (h : ∀ target visited, visit' target visited =
      (visit target visited).map fun r => (r.1.map (ListTree.map f), r.2))
    (targets visited : List α) : buildAll visit' targets visited =
      (buildAll visit targets visited).map fun r => (mapAll f r.1, r.2) := by
  induction targets generalizing visited with
  | nil => rfl
  | cons target rest ih =>
      rw [buildAll, buildAll, h]
      cases visit target visited with
      | none => rfl
      | some r =>
          show (buildAll visit' rest r.2).bind _ = Option.map _ ((buildAll visit rest r.2).bind _)
          rw [ih]
          cases buildAll visit rest r.2 with
          | none => rfl
          | some r' =>
              show some _ = some (mapAll f (r.1.toList ++ r'.1), r'.2)
              rw [mapAll_append, mapAll_toList]

section Build

variable [DecidableEq α] {g : LabelledGraph α β} {all : Bool}

/-- The tree does not depend on the labels, apart from showing them. -/
theorem build_map (f : β → γ) (fuel : Nat) (remaining : Option Nat) (stack : List α) (target : α)
    (visited : List α) : build (g.map f) all fuel remaining stack target visited =
      (build g all fuel remaining stack target visited).map
        fun r => (r.1.map (ListTree.map f), r.2) := by
  induction fuel generalizing remaining stack target visited with
  | zero =>
      unfold build LabelledGraph.map
      dsimp only
      cases g.label target with
      | none => rfl
      | some label =>
          dsimp only [Option.map_some]
          split <;> rfl
  | succ fuel ih =>
      unfold build
      show (match (g.label target).map f with | none => _ | some label => _) = _
      cases g.label target with
      | none => rfl
      | some label =>
          dsimp only [Option.map_some]
          split
          · rfl
          · show (buildAll _ (g.edges target) _).bind _ =
              Option.map _ ((buildAll _ (g.edges target) _).bind _)
            rw [buildAll_map f (ih _ _)]
            cases buildAll (build g all fuel (remaining.map (· - 1)) (target :: stack))
              (g.edges target) (target :: visited) <;> rfl

end Build

/-! ## The listing ends -/

theorem buildAll_total {n : Nat}
    {visit : Nat → α → List α → Option (Option (ListTree β) × List α)}
    (h : ∀ target visited, ∃ r, ∀ fuel, n ≤ fuel → visit fuel target visited = some r)
    (targets visited : List α) :
    ∃ r, ∀ fuel, n ≤ fuel → buildAll (visit fuel) targets visited = some r := by
  induction targets generalizing visited with
  | nil => exact ⟨([], visited), fun _ _ => rfl⟩
  | cons target rest ih =>
      obtain ⟨⟨child, visited₁⟩, hchild⟩ := h target visited
      obtain ⟨⟨children, visited₂⟩, hrest⟩ := ih visited₁
      refine ⟨(child.toList ++ children, visited₂), ?_⟩
      intro fuel hfuel
      rw [buildAll, hchild fuel hfuel]
      show (buildAll (visit fuel) rest visited₁).bind _ = _
      rw [hrest fuel hfuel]
      rfl

section Termination

variable [DecidableEq α] {g : LabelledGraph α β} {all : Bool}

/-- The vertices that are not on the way. -/
def unstacked (keys stack : List α) : Nat := (keys.filter fun k => k ∉ stack).length

theorem unstacked_cons_lt {keys stack : List α} {target : α} (hkey : target ∈ keys)
    (hstack : target ∉ stack) : unstacked keys (target :: stack) < unstacked keys stack := by
  unfold unstacked
  have hsub : (keys.filter fun k => k ∉ target :: stack).Sublist
      (keys.filter fun k => k ∉ stack) := by
    apply List.monotone_filter_right
    intro k hk
    simp only [List.mem_cons, not_or, decide_eq_true_eq] at hk ⊢
    exact hk.2
  apply lt_of_le_of_ne hsub.length_le
  intro hlength
  have hmem : target ∈ keys.filter fun k => k ∉ target :: stack := by
    rw [hsub.eq_of_length hlength, List.mem_filter]
    exact ⟨hkey, decide_eq_true hstack⟩
  have := of_decide_eq_true (List.mem_filter.mp hmem).2
  exact this List.mem_cons_self

variable {keys : List α} (hkeys : ∀ target, (g.label target).isSome = true → target ∈ keys)

include hkeys

/-- The way never holds a vertex twice, so its length is bounded. -/
theorem build_total (remaining : Option Nat) (stack : List α) (target : α) (visited : List α) :
    ∃ r, ∀ fuel, unstacked keys stack ≤ fuel →
      build g all fuel remaining stack target visited = some r := by
  induction hn : unstacked keys stack using Nat.strong_induction_on
    generalizing remaining stack target visited with
  | _ n ih =>
      subst hn
      unfold build
      cases hlabel : g.label target with
      | none => exact ⟨(none, visited), fun _ _ => rfl⟩
      | some label =>
          dsimp only
          by_cases hstop : remaining = some 0 ∨ target ∈ stack ∨ all = false ∧ target ∈ visited
          · simp only [if_pos hstop]
            exact ⟨(some (.node label []), visited), fun _ _ => rfl⟩
          · simp only [if_neg hstop]
            have hkey : target ∈ keys := hkeys target (by rw [hlabel]; rfl)
            have hlt := unstacked_cons_lt hkey fun hmem => hstop (Or.inr (Or.inl hmem))
            obtain ⟨⟨children, visited'⟩, hchildren⟩ := buildAll_total
              (fun target' visited' => ih _ hlt (remaining.map (· - 1)) (target :: stack) target'
                visited' rfl) (g.edges target) (target :: visited)
            refine ⟨(some (.node label children), visited'), ?_⟩
            intro fuel hfuel
            obtain ⟨fuel, rfl⟩ : ∃ m, fuel = m + 1 := ⟨fuel - 1, by omega⟩
            show (buildAll _ (g.edges target) (target :: visited)).bind _ = _
            rw [hchildren fuel (by omega)]
            rfl

theorem listing_total (limit : Option Nat) (roots : List α) :
    ∃ trees, ∀ fuel, keys.length ≤ fuel → listing g all fuel limit roots = some trees := by
  have hunstacked : unstacked keys [] ≤ keys.length := List.length_filter_le _ _
  obtain ⟨⟨trees, visited⟩, htrees⟩ := buildAll_total
    (fun target visited => show ∃ r, ∀ fuel, unstacked keys [] ≤ fuel →
      build g all fuel limit [] target visited = some r from
        build_total hkeys limit [] target visited) roots []
  refine ⟨trees, ?_⟩
  intro fuel hfuel
  rw [listing, htrees fuel (hunstacked.trans hfuel)]
  rfl

end Termination

/-! ## What is listed -/

section Listed

variable [DecidableEq α] {g : LabelledGraph α β} {key : β → α} {limit : Option Nat}

theorem first_append_left {P P' : List (α × Nat)} {p : α} {j : Nat} (h : First limit P p j) :
    First limit (P ++ P') p j := by
  unfold First at *
  rw [List.find?_append, h]
  rfl

theorem First.mem {P : List (α × Nat)} {p : α} {j : Nat} (h : First limit P p j) :
    (p, j) ∈ P ∧ below limit j = true := by
  have hpred := List.find?_some h
  exact ⟨List.mem_of_find?_eq_some h, by simpa using hpred⟩

/-- What is listed above the limit is so at a first place. -/
theorem exists_first {P : List (α × Nat)} {p : α} {j : Nat} (hmem : (p, j) ∈ P)
    (hbelow : below limit j = true) : ∃ depth, First limit P p depth := by
  have hsome : (P.find? fun e => e.1 = p && below limit e.2).isSome = true := by
    rw [List.find?_isSome]
    exact ⟨(p, j), hmem, by simpa using hbelow⟩
  obtain ⟨⟨p', depth⟩, hfind⟩ := Option.isSome_iff_exists.mp hsome
  have hp : p' = p := by
    have hpred := List.find?_some hfind
    simp only [Bool.and_eq_true, decide_eq_true_eq] at hpred
    exact hpred.1
  exact ⟨depth, by rw [← hp] at hfind ⊢; exact hfind⟩

theorem first_append_iff {P P' : List (α × Nat)} {p : α} {j : Nat}
    (h : ∀ depth, (p, depth) ∈ P → below limit depth = false) :
    First limit (P ++ P') p j ↔ First limit P' p j := by
  have hnone : P.find? (fun e => e.1 = p && below limit e.2) = none := by
    rw [List.find?_eq_none]
    rintro ⟨p', depth⟩ hmem hpred
    simp only [Bool.and_eq_true, decide_eq_true_eq] at hpred
    rw [hpred.1] at hmem
    rw [h depth hmem] at hpred
    cases hpred.2
  unfold First
  rw [List.find?_append, hnone, Option.none_or]

theorem first_cons_iff {P : List (α × Nat)} {target p : α} {i j : Nat} (hne : p ≠ target) :
    First limit ((target, i) :: P) p j ↔ First limit P p j := by
  rw [← List.singleton_append]
  apply first_append_iff
  intro depth hmem
  exact absurd (Prod.mk.inj (List.mem_singleton.mp hmem)).1 hne

variable (g limit)

/-- What is listed for targets at a depth, when some vertices were expanded before. -/
structure Lists (depth : Nat) (targets seen : List α) (listed : List (α × Nat))
    (seen' : List α) : Prop where
  /-- Expanded is what was so before, and what is listed above the limit. -/
  grown : ∀ p, p ∈ seen' ↔ p ∈ seen ∨ ∃ j, (p, j) ∈ listed ∧ below limit j = true
  label : ∀ e ∈ listed, (g.label e.1).isSome = true
  within : ∀ e ∈ listed, Within limit e.2
  /-- Every target is listed. -/
  top : ∀ t ∈ targets, (g.label t).isSome = true → (t, depth) ∈ listed
  /-- Everything else stands below a vertex that is expanded there. -/
  parent : ∀ e ∈ listed, (e.2 = depth ∧ e.1 ∈ targets) ∨
    ∃ p j, e.2 = j + 1 ∧ p ∉ seen ∧ First limit listed p j ∧ e.1 ∈ g.edges p
  /-- A vertex is expanded at its first place above the limit. -/
  expanded : ∀ p j, p ∉ seen → First limit listed p j →
    ∀ q ∈ g.edges p, (g.label q).isSome = true → (q, j + 1) ∈ listed

variable {g limit}

theorem Lists.nil (depth : Nat) (seen : List α) : Lists g limit depth [] seen [] seen where
  grown _ := ⟨Or.inl, fun h => h.elim id nofun⟩
  label := nofun
  within := nofun
  top := nofun
  parent := nofun
  expanded := nofun

/-- A target without a label is not listed. -/
theorem Lists.missing {depth : Nat} {target : α} (seen : List α) (h : g.label target = none) :
    Lists g limit depth [target] seen [] seen where
  grown _ := ⟨Or.inl, fun h => h.elim id nofun⟩
  label := nofun
  within := nofun
  top t ht hlabel := by
    rw [List.mem_singleton.mp ht, h] at hlabel
    cases hlabel
  parent := nofun
  expanded := nofun

/-- A target that is not expanded. -/
theorem Lists.leaf {depth : Nat} {target : α} {seen : List α}
    (hlabel : (g.label target).isSome = true) (hwithin : Within limit depth)
    (h : below limit depth = true → target ∈ seen) :
    Lists g limit depth [target] seen [(target, depth)] seen where
  grown p := by
    refine ⟨Or.inl, ?_⟩
    rintro (hin | ⟨j, hmem, hbelow⟩)
    · exact hin
    · obtain ⟨rfl, rfl⟩ := Prod.mk.inj (List.mem_singleton.mp hmem)
      exact h hbelow
  label e he := by
    rw [List.mem_singleton.mp he]
    exact hlabel
  within e he := by
    rw [List.mem_singleton.mp he]
    exact hwithin
  top t ht _ := by
    rw [List.mem_singleton.mp ht]
    exact List.mem_singleton_self _
  parent e he := by
    rw [List.mem_singleton.mp he]
    exact Or.inl ⟨rfl, List.mem_singleton_self _⟩
  expanded p j hfresh hfirst := by
    obtain ⟨hmem, hbelow⟩ := hfirst.mem
    obtain ⟨rfl, rfl⟩ := Prod.mk.inj (List.mem_singleton.mp hmem)
    exact absurd (h hbelow) hfresh

/-- A target that is expanded. -/
theorem Lists.node {depth : Nat} {target : α} {seen seen' : List α}
    {listed : List (α × Nat)} (hlabel : (g.label target).isSome = true)
    (hnew : target ∉ seen) (hbelow : below limit depth = true) (hwithin : Within limit depth)
    (h : Lists g limit (depth + 1) (g.edges target) (target :: seen) listed seen') :
    Lists g limit depth [target] seen ((target, depth) :: listed) seen' where
  grown p := by
    rw [h.grown, List.mem_cons]
    constructor
    · rintro ((rfl | hin) | ⟨j, hmem, hj⟩)
      · exact Or.inr ⟨depth, List.mem_cons_self, hbelow⟩
      · exact Or.inl hin
      · exact Or.inr ⟨j, List.mem_cons_of_mem _ hmem, hj⟩
    · rintro (hin | ⟨j, hmem, hj⟩)
      · exact Or.inl (Or.inr hin)
      · rcases List.mem_cons.mp hmem with heq | hin
        · exact Or.inl (Or.inl (Prod.mk.inj heq).1)
        · exact Or.inr ⟨j, hin, hj⟩
  label := List.forall_mem_cons.mpr ⟨hlabel, h.label⟩
  within := List.forall_mem_cons.mpr ⟨hwithin, h.within⟩
  top t ht _ := by
    rw [List.mem_singleton.mp ht]
    exact List.mem_cons_self
  parent e he := by
    rcases List.mem_cons.mp he with rfl | hin
    · exact Or.inl ⟨rfl, List.mem_singleton_self _⟩
    right
    rcases h.parent e hin with ⟨hdepth, hedge⟩ | ⟨p, j, hdepth, hfresh, hfirst, hedge⟩
    · -- a child of the target, which is expanded at its own place
      refine ⟨target, depth, hdepth, hnew, ?_, hedge⟩
      unfold First
      rw [List.find?_cons_of_pos (by simpa using hbelow)]
    · rw [List.mem_cons, not_or] at hfresh
      exact ⟨p, j, hdepth, hfresh.2, (first_cons_iff hfresh.1).mpr hfirst, hedge⟩
  expanded p j hfresh hfirst := by
    by_cases hp : p = target
    · subst hp
      have hj : depth = j := by
        unfold First at hfirst
        rw [List.find?_cons_of_pos (by simpa using hbelow)] at hfirst
        exact (Prod.mk.inj (Option.some.inj hfirst)).2
      subst hj
      intro q hq hlabel
      exact List.mem_cons_of_mem _ (h.top q hq hlabel)
    · intro q hq hlabel
      exact List.mem_cons_of_mem _ (h.expanded p j (by simp [hp, hfresh])
        ((first_cons_iff hp).mp hfirst) q hq hlabel)

theorem Lists.append {depth : Nat} {targets targets' seen seen' seen'' : List α}
    {listed listed' : List (α × Nat)} (h : Lists g limit depth targets seen listed seen')
    (h' : Lists g limit depth targets' seen' listed' seen'') :
    Lists g limit depth (targets ++ targets') seen (listed ++ listed') seen'' where
  grown p := by
    rw [h'.grown, h.grown, or_assoc]
    apply or_congr_right
    rw [← exists_or]
    apply exists_congr
    intro j
    rw [List.mem_append, or_and_right]
  label e he := (List.mem_append.mp he).elim (h.label e) (h'.label e)
  within e he := (List.mem_append.mp he).elim (h.within e) (h'.within e)
  top t ht hlabel := by
    rcases List.mem_append.mp ht with hin | hin
    · exact List.mem_append_left _ (h.top t hin hlabel)
    · exact List.mem_append_right _ (h'.top t hin hlabel)
  parent e he := by
    rcases List.mem_append.mp he with hin | hin
    · rcases h.parent e hin with ⟨hdepth, htop⟩ | ⟨p, j, hdepth, hfresh, hfirst, hedge⟩
      · exact Or.inl ⟨hdepth, List.mem_append_left _ htop⟩
      · exact Or.inr ⟨p, j, hdepth, hfresh, first_append_left hfirst, hedge⟩
    · rcases h'.parent e hin with ⟨hdepth, htop⟩ | ⟨p, j, hdepth, hfresh, hfirst, hedge⟩
      · exact Or.inl ⟨hdepth, List.mem_append_right _ htop⟩
      · rw [h.grown, not_or, not_exists] at hfresh
        refine Or.inr ⟨p, j, hdepth, hfresh.1, (first_append_iff ?_).mpr hfirst, hedge⟩
        intro d hmem
        simpa [hmem] using hfresh.2 d
  expanded p j hfresh hfirst := by
    by_cases hlisted : ∃ d, (p, d) ∈ listed ∧ below limit d = true
    · obtain ⟨d, hmem, hd⟩ := hlisted
      obtain ⟨i, hi⟩ := exists_first hmem hd
      have hj : i = j := by
        have happend : First limit (listed ++ listed') p i := first_append_left hi
        unfold First at happend hfirst
        rw [happend] at hfirst
        exact (Prod.mk.inj (Option.some.inj hfirst)).2
      subst hj
      intro q hq hlabel
      exact List.mem_append_left _ (h.expanded p i hfresh hi q hq hlabel)
    · rw [not_exists] at hlisted
      have hbelow : ∀ d, (p, d) ∈ listed → below limit d = false := by
        intro d hmem
        simpa [hmem] using hlisted d
      have hfresh' : p ∉ seen' := by
        rw [h.grown, not_or, not_exists]
        exact ⟨hfresh, hlisted⟩
      intro q hq hlabel
      exact List.mem_append_right _
        (h'.expanded p j hfresh' ((first_append_iff hbelow).mp hfirst) q hq hlabel)

theorem buildAll_lists {depth : Nat}
    {visit : α → List α → Option (Option (ListTree β) × List α)} {stack : List α}
    (hvisit : ∀ target seen r, stack ⊆ seen → visit target seen = some r →
      Lists g limit depth [target] seen (positionsAll key depth r.1.toList) r.2)
    {targets seen : List α} (hstack : stack ⊆ seen) {r : List (ListTree β) × List α}
    (h : buildAll visit targets seen = some r) :
    Lists g limit depth targets seen (positionsAll key depth r.1) r.2 := by
  induction targets generalizing seen r with
  | nil =>
      cases h
      exact Lists.nil depth seen
  | cons target rest ih =>
      rw [buildAll] at h
      obtain ⟨⟨child, seen₁⟩, hchild, h⟩ := Option.bind_eq_some_iff.mp h
      obtain ⟨⟨children, seen₂⟩, hrest, h⟩ := Option.bind_eq_some_iff.mp h
      cases h
      have hhead := hvisit target seen _ hstack hchild
      have hgrown : seen ⊆ seen₁ := fun p hp => (hhead.grown p).mpr (Or.inl hp)
      rw [positionsAll_append]
      exact hhead.append (ih (List.Subset.trans hstack hgrown) hrest)

/-- What stops a target from being expanded. -/
theorem mem_seen_of_stop {depth : Nat} {stack seen : List α} {target : α} (hstack : stack ⊆ seen)
    (h : limit.map (· - depth) = some 0 ∨ target ∈ stack ∨ false = false ∧ target ∈ seen)
    (hbelow : below limit depth = true) : target ∈ seen := by
  rcases h with hzero | hin | ⟨_, hin⟩
  · obtain ⟨d, rfl, hd⟩ := Option.map_eq_some_iff.mp hzero
    have hlt : depth < d := by simpa [below] using hbelow
    omega
  · exact hstack hin
  · exact hin

theorem below_of_not_zero {depth : Nat} (hwithin : Within limit depth)
    (h : limit.map (· - depth) ≠ some 0) : below limit depth = true := by
  cases limit with
  | none => rfl
  | some d =>
      have hle : depth ≤ d := hwithin d rfl
      have hne : d - depth ≠ 0 := fun hzero => h (congrArg some hzero)
      show decide (depth < d) = true
      rw [decide_eq_true_eq]
      omega

theorem within_succ {depth : Nat} (h : below limit depth = true) : Within limit (depth + 1) := by
  intro d hd
  rw [Option.mem_def.mp hd] at h
  exact of_decide_eq_true h

variable (hkey : ∀ target label, g.label target = some label → key label = target)

include hkey

/-- What one target adds to the listing. -/
theorem build_lists {fuel depth : Nat} {stack : List α} {target : α} {seen : List α}
    {r : Option (ListTree β) × List α} (hwithin : Within limit depth) (hstack : stack ⊆ seen)
    (h : build g false fuel (limit.map (· - depth)) stack target seen = some r) :
    Lists g limit depth [target] seen (positionsAll key depth r.1.toList) r.2 := by
  induction fuel generalizing depth stack target seen r with
  | zero =>
      unfold build at h
      cases hlabel : g.label target with
      | none =>
          rw [hlabel] at h
          cases h
          exact Lists.missing seen hlabel
      | some label =>
          rw [hlabel] at h
          dsimp only at h
          split at h
          · rename_i hstop
            cases h
            have hsome : (g.label target).isSome = true := by rw [hlabel]; rfl
            have hleaf := Lists.leaf hsome hwithin (mem_seen_of_stop hstack hstop)
            show Lists g limit depth [target] seen [(key label, depth)] seen
            rw [hkey target label hlabel]
            exact hleaf
          · cases h
  | succ fuel ih =>
      unfold build at h
      cases hlabel : g.label target with
      | none =>
          rw [hlabel] at h
          cases h
          exact Lists.missing seen hlabel
      | some label =>
          rw [hlabel] at h
          dsimp only at h
          have hsome : (g.label target).isSome = true := by rw [hlabel]; rfl
          split at h
          · rename_i hstop
            cases h
            have hleaf := Lists.leaf hsome hwithin (mem_seen_of_stop hstack hstop)
            show Lists g limit depth [target] seen [(key label, depth)] seen
            rw [hkey target label hlabel]
            exact hleaf
          · rename_i hgo
            rw [not_or, not_or, not_and] at hgo
            obtain ⟨hzero, _, hnew⟩ := hgo
            obtain ⟨⟨children, seen'⟩, hchildren, hr⟩ := Option.bind_eq_some_iff.mp h
            cases hr
            have hbelow := below_of_not_zero hwithin hzero
            have hremaining : (limit.map (· - depth)).map (· - 1) =
                limit.map (· - (depth + 1)) := by
              rw [Option.map_map]
              rfl
            rw [hremaining] at hchildren
            have hbody : Lists g limit (depth + 1) (g.edges target) (target :: seen)
                (positionsAll key (depth + 1) children) seen' := buildAll_lists
              (fun target' seen' r' hstack' h' => ih (within_succ hbelow) hstack' h')
              (List.cons_subset_cons target hstack) hchildren
            have hnode := Lists.node hsome (hnew rfl) hbelow hwithin hbody
            show Lists g limit depth [target] seen
              ((key label, depth) :: positionsAll key (depth + 1) children ++ []) seen'
            rw [hkey target label hlabel, List.append_nil]
            exact hnode

/-- A listing from the root. -/
theorem listing_lists {fuel : Nat} {roots : List α} {trees : List (ListTree β)}
    (h : listing g false fuel limit roots = some trees) :
    ∃ seen, Lists g limit 0 roots [] (positionsAll key 0 trees) seen := by
  obtain ⟨⟨trees', seen⟩, hbuild, rfl⟩ := Option.map_eq_some_iff.mp h
  refine ⟨seen, buildAll_lists ?_ (List.nil_subset []) hbuild⟩
  intro target visited r _ hvisit
  have hzero : limit.map (· - 0) = limit := by
    cases limit <;> rfl
  rw [← hzero] at hvisit
  exact build_lists hkey (fun _ _ => Nat.zero_le _) (List.nil_subset _) hvisit

end Listed

/-! ## What a listing shows -/

section Shown

variable [DecidableEq α] {g : LabelledGraph α β} {limit : Option Nat} {roots : List α}
  {listed : List (α × Nat)}

theorem Direct.steps {n : Nat} {p : α} (h : Direct g roots limit listed n p) :
    InSteps g roots n p := by
  induction h with
  | root hroot hlabel => exact .root hroot hlabel
  | edge _ _ hedge hlabel ih => exact .edge ih hedge hlabel

variable {seen : List α} (h : Lists g limit 0 roots [] listed seen)

include h

/-- What is listed is reached directly, by as many edges as it is deep. -/
theorem direct_of_listed {p : α} {depth : Nat} (hmem : (p, depth) ∈ listed) :
    Direct g roots limit listed depth p := by
  induction depth generalizing p with
  | zero =>
      rcases h.parent _ hmem with ⟨_, hroot⟩ | ⟨_, _, hdepth, _⟩
      · exact .root hroot (h.label _ hmem)
      · cases hdepth
  | succ depth ih =>
      rcases h.parent _ hmem with ⟨hdepth, _⟩ | ⟨p', j, hdepth, _, hfirst, hedge⟩
      · cases hdepth
      · obtain rfl : depth = j := Nat.succ.inj hdepth
        refine .edge (ih hfirst.mem.1) ?_ hedge (h.label _ hmem)
        intro j hj
        unfold First at hfirst hj
        rw [hfirst] at hj
        exact (Prod.mk.inj (Option.some.inj hj)).2.symm.le

/-- What is reached directly is listed, and no deeper than it is reached. -/
theorem listed_of_direct {p : α} {n : Nat} (hdirect : Direct g roots limit listed n p)
    (hwithin : Within limit n) : ∃ depth, (p, depth) ∈ listed ∧ depth ≤ n := by
  induction hdirect with
  | root hroot hlabel => exact ⟨0, h.top _ hroot hlabel, le_rfl⟩
  | @edge n p q _ hfirst hedge hlabel ih =>
      have hbelow : below limit n = true := by
        cases limit with
        | none => rfl
        | some d => exact decide_eq_true (hwithin d rfl)
      obtain ⟨depth, hmem, hle⟩ := ih fun d hd => (Nat.le_succ n).trans (hwithin d hd)
      have hdepth : below limit depth = true := by
        cases limit with
        | none => rfl
        | some d => exact decide_eq_true (lt_of_le_of_lt hle (of_decide_eq_true hbelow))
      obtain ⟨j, hj⟩ := exists_first hmem hdepth
      exact ⟨j + 1, h.expanded p j List.not_mem_nil hj q hedge hlabel,
        Nat.succ_le_succ (hfirst j hj)⟩

/-- A vertex is listed exactly when it is reached directly within the limit. -/
theorem listed_iff {p : α} : (∃ depth, (p, depth) ∈ listed) ↔
    ∃ n, Within limit n ∧ Direct g roots limit listed n p := by
  constructor
  · rintro ⟨depth, hmem⟩
    exact ⟨depth, h.within _ hmem, direct_of_listed h hmem⟩
  · rintro ⟨n, hwithin, hdirect⟩
    obtain ⟨depth, hmem, _⟩ := listed_of_direct h hdirect hwithin
    exact ⟨depth, hmem⟩

end Shown

/-- Without a limit everything in reach is listed. -/
theorem listed_iff_steps [DecidableEq α] {g : LabelledGraph α β} {roots seen : List α}
    {listed : List (α × Nat)} (h : Lists g none 0 roots [] listed seen) {p : α} :
    (∃ depth, (p, depth) ∈ listed) ↔ ∃ n, InSteps g roots n p := by
  constructor
  · rintro ⟨depth, hmem⟩
    exact ⟨depth, (direct_of_listed h hmem).steps⟩
  · rintro ⟨n, hsteps⟩
    induction hsteps with
    | root hroot hlabel => exact ⟨0, h.top _ hroot hlabel⟩
    | @edge n p q _ hedge hlabel ih =>
        obtain ⟨depth, hmem⟩ := ih
        obtain ⟨j, hj⟩ := exists_first hmem (show below none depth = true from rfl)
        exact ⟨j + 1, h.expanded p j List.not_mem_nil hj q hedge hlabel⟩

end Listing
end Bpm
