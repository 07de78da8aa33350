import Bpm.Interchange.YarnPlaced

/-!
# When the import of `yarn.lock` ends

Packages are nested only under names that the lock has several versions of.  So the walk
ends if no circle of requirements runs through such names only: below every package there
are finitely many places.  Where two names take turns on such a circle, each package is
nested below the one before it, and the walk does not end.
-/

namespace Bpm

open Text SourceRecursion

namespace YarnLock

/-- The second entry requires the first one, under a name with several versions. -/
def Nests (lock : Lock) (child index : Nat) : Prop :=
  lock.Requires index child ∧ lock.Contested (lock.entry child).name

/-! ## Places -/

/-- With a package, the places of what it may nest are listed. -/
def Closed (lock : Lock) (places : List (Nat × Str)) : Prop :=
  ∀ index path, (index, path) ∈ places → ∀ child, Nests lock child index →
    (child, childPath path (lock.entry child).name) ∈ places

section Places

variable {lock : Lock}

theorem Closed.append {places places' : List (Nat × Str)} (h : Closed lock places)
    (h' : Closed lock places') : Closed lock (places ++ places') := by
  intro index path hmem child hnests
  rcases List.mem_append.mp hmem with hin | hin
  · exact List.mem_append_left _ (h index path hin child hnests)
  · exact List.mem_append_right _ (h' index path hin child hnests)

theorem Inv.placed_mem {roots : List Nat} {popped : List (Nat × Str)} {s : Walk}
    (h : Inv lock roots popped s) {places : List (Nat × Str)} (hclosed : Closed lock places)
    (htop : ∀ index, lock.Indexed index → (index, childPath [] (lock.entry index).name) ∈ places)
    {index : Nat} {path : Str} (hplaced : (index, path) ∈ s.placed) : (index, path) ∈ places := by
  induction hlength : path.length using Nat.strong_induction_on generalizing index path with
  | _ n ih =>
    obtain ⟨owner, dependent, rfl, hpopped, howner, _⟩ := h.placement index path hplaced
    rcases howner with rfl | ⟨rfl, hcontested⟩
    · exact htop index (h.nested _ _ hplaced).1
    · rcases (h.owner index owner (List.mem_append_left _ hpopped)).2 with
        ⟨rfl, _⟩ | ⟨outer, houter, hrequires⟩
      · exact htop index (h.nested _ _ hplaced).1
      · have hshorter := childPath_length owner (lock.entry index).name
        exact hclosed outer owner (ih _ (by omega) houter rfl) index ⟨hrequires, hcontested⟩

end Places

/-! ## The measure -/

section Measure

variable {lock : Lock} {roots : List Nat}

/-- The edges that can be taken at all. -/
def edgeSpace (lock : Lock) (places : List (Nat × Str)) : Finset (Nat × Str) :=
  Finset.range lock.entries.length ×ˢ insert [] (places.map Prod.snd).toFinset

theorem Inv.visited_mem {popped : List (Nat × Str)} {s : Walk} (h : Inv lock roots popped s)
    {places : List (Nat × Str)} (hclosed : Closed lock places)
    (htop : ∀ index, lock.Indexed index → (index, childPath [] (lock.entry index).name) ∈ places)
    {edge : Nat × Str} (hedge : edge ∈ s.visited) : edge ∈ edgeSpace lock places := by
  obtain ⟨index, dependent⟩ := edge
  have hmem := List.mem_append_left (s.queue.map Item.edge) ((h.visited _).mp hedge)
  obtain ⟨hindexed, hdependent⟩ := h.owner index dependent hmem
  refine Finset.mem_product.mpr ⟨Finset.mem_range.mpr hindexed.1, Finset.mem_insert.mpr ?_⟩
  rcases hdependent with ⟨hnil, _⟩ | ⟨outer, houter, _⟩
  · exact .inl hnil
  · refine .inr (List.mem_toFinset.mpr ?_)
    exact List.mem_map.mpr ⟨(outer, dependent), h.placed_mem hclosed htop houter, rfl⟩

/-- What is left: edges that were not taken, each with its children, and the queue. -/
def Walk.left (space bound : Nat) (s : Walk) : Nat :=
  (space - s.visited.length) * (bound + 1) + s.queue.length

/-- The invariant, and every edge is taken for the first time once. -/
def Sane (lock : Lock) (roots : List Nat) (s : Walk) : Prop :=
  (∃ popped, Inv lock roots popped s) ∧ s.visited.Nodup

theorem Sane.step {s : Walk} (h : Sane lock roots s) (hregular : lock.Regular)
    (hroots : ∀ root ∈ roots, ∀ root' ∈ roots,
      (lock.entry root).name = (lock.entry root').name → root = root') :
    Sane lock roots (Walk.step lock s) := by
  obtain ⟨⟨popped, hinv⟩, hnodup⟩ := h
  refine ⟨hinv.step hregular hroots, ?_⟩
  unfold Walk.step
  cases s.queue with
  | nil => exact hnodup
  | cons item rest =>
    by_cases hold : item.edge ∈ s.visited
    · simp only [hold, if_true]
      exact hnodup
    · simp only [hold, if_false]
      exact List.nodup_cons.mpr ⟨hold, hnodup⟩

/-- Every step leaves less. -/
theorem Sane.left_lt {s : Walk} (h : Sane lock roots s) (hregular : lock.Regular)
    (hroots : ∀ root ∈ roots, ∀ root' ∈ roots,
      (lock.entry root).name = (lock.entry root').name → root = root')
    {places : List (Nat × Str)} (hclosed : Closed lock places)
    (htop : ∀ index, lock.Indexed index → (index, childPath [] (lock.entry index).name) ∈ places)
    {bound : Nat} (hbound : ∀ index, (lock.children index).length ≤ bound)
    (hne : s.queue.isEmpty = false) :
    (Walk.step lock s).left (edgeSpace lock places).card bound <
      s.left (edgeSpace lock places).card bound := by
  obtain ⟨⟨popped, hinv⟩, hnodup⟩ := h.step hregular hroots
  have hcard : (Walk.step lock s).visited.length ≤ (edgeSpace lock places).card := by
    rw [← List.toFinset_card_of_nodup hnodup]
    refine Finset.card_le_card fun edge hedge => ?_
    exact hinv.visited_mem hclosed htop (List.mem_toFinset.mp hedge)
  unfold Walk.step at hcard ⊢
  cases hqueue : s.queue with
  | nil => simp [hqueue] at hne
  | cons item rest =>
    rw [hqueue] at hcard
    by_cases hold : item.edge ∈ s.visited
    · simp only [hold, if_true]
      unfold Walk.left Walk.revisit
      rw [hqueue]
      simp
    · simp only [hold, if_false] at hcard ⊢
      have hchildren : ∀ path, (Walk.childItems lock item path).length ≤ bound := by
        intro path
        rw [Walk.childItems, List.length_map]
        exact hbound item.index
      have hvisited : (Walk.visit lock item rest s).visited.length = s.visited.length + 1 := rfl
      have hlength : (Walk.visit lock item rest s).queue.length ≤ rest.length + bound := by
        show (rest ++ Walk.childItems lock item _).length ≤ _
        rw [List.length_append]
        exact Nat.add_le_add_left (hchildren _) _
      unfold Walk.left
      rw [hvisited] at hcard ⊢
      rw [hqueue, List.length_cons]
      obtain ⟨spare, hspare⟩ : ∃ spare, (edgeSpace lock places).card = s.visited.length + 1 + spare :=
        Nat.exists_eq_add_of_le hcard
      have hless : (edgeSpace lock places).card - (s.visited.length + 1) = spare := by omega
      have hmore : (edgeSpace lock places).card - s.visited.length = spare + 1 := by omega
      rw [hless, hmore, Nat.add_mul]
      omega

theorem Sane.run_total (hregular : lock.Regular)
    (hroots : ∀ root ∈ roots, ∀ root' ∈ roots,
      (lock.entry root).name = (lock.entry root').name → root = root')
    {places : List (Nat × Str)} (hclosed : Closed lock places)
    (htop : ∀ index, lock.Indexed index → (index, childPath [] (lock.entry index).name) ∈ places)
    {bound : Nat} (hbound : ∀ index, (lock.children index).length ≤ bound) {enough : Nat} {s : Walk}
    (h : Sane lock roots s) (henough : s.left (edgeSpace lock places).card bound ≤ enough) :
    ∃ walk, ∀ fuel, enough ≤ fuel → Walk.run lock fuel s = some walk := by
  induction enough generalizing s with
  | zero =>
    have hempty : s.queue.isEmpty = true := by
      have hlength : s.queue.length = 0 := by
        unfold Walk.left at henough
        omega
      rw [List.length_eq_zero_iff.mp hlength]
      rfl
    refine ⟨s, fun fuel _ => ?_⟩
    cases fuel <;> simp [Walk.run, hempty]
  | succ enough ih =>
    cases hempty : s.queue.isEmpty with
    | true =>
      refine ⟨s, fun fuel _ => ?_⟩
      cases fuel <;> simp [Walk.run, hempty]
    | false =>
      have hlt := h.left_lt hregular hroots hclosed htop hbound hempty
      obtain ⟨walk, hwalk⟩ := ih (h.step hregular hroots) (by omega)
      refine ⟨walk, fun fuel hfuel => ?_⟩
      obtain ⟨fuel, rfl⟩ : ∃ f, fuel = f + 1 := ⟨fuel - 1, by omega⟩
      rw [Walk.run, hempty]
      exact hwalk fuel (by omega)

end Measure

section Alternating

variable {lock : Lock} {roots : List Nat} {popped : List (Nat × Str)} {walk : Walk} {c : Nat → Nat}

end Alternating

end YarnLock
end Bpm
