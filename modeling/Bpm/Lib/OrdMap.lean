import Bpm.Lib.Text

/-!
# Ordered maps keyed by texts

An ordered map is the extensional tree map of the standard library, so two maps
are equal exactly when they hold the same entries, and listing a map yields its
entries in key order.  The lemmas restate the library's facts with key equality
in place of `compare _ _ = .eq`.
-/

namespace Bpm

/-- Finite maps from texts, iterated in key order. -/
abbrev Map (α : Type) := Std.ExtTreeMap Str α compare

namespace Map

variable {α β : Type}

/-- The values of a map, in key order. -/
def valuesOf (m : Map α) : List α := m.toList.map Prod.snd

theorem get_insert (m : Map α) (k a : Str) (v : α) :
    (m.insert k v)[a]? = if k = a then some v else m[a]? := by
  simp [Std.ExtTreeMap.getElem?_insert]

@[simp] theorem get_insert_self (m : Map α) (k : Str) (v : α) :
    (m.insert k v)[k]? = some v := by
  simp

theorem get_insert_of_ne (m : Map α) {k a : Str} (v : α) (h : k ≠ a) :
    (m.insert k v)[a]? = m[a]? := by
  simp [get_insert, h]

theorem get_modify (m : Map α) (k a : Str) (f : α → α) :
    (m.modify k f)[a]? = if k = a then m[a]?.map f else m[a]? := by
  by_cases h : k = a
  · simp [h]
  · simp [Std.ExtTreeMap.getElem?_modify, h]

theorem contains_eq_isSome (m : Map α) (k : Str) : m.contains k = m[k]?.isSome := by
  simp

theorem contains_insert (m : Map α) (k a : Str) (v : α) :
    (m.insert k v).contains a = (decide (k = a) || m.contains a) := by
  rw [contains_eq_isSome, contains_eq_isSome, get_insert]
  by_cases h : k = a <;> simp [h]

@[simp] theorem contains_modify (m : Map α) (k a : Str) (f : α → α) :
    (m.modify k f).contains a = m.contains a :=
  Std.ExtTreeMap.contains_modify

theorem mem_toList {m : Map α} {k : Str} {v : α} :
    (k, v) ∈ m.toList ↔ m[k]? = some v := by
  simp

theorem keys_nodup (m : Map α) : (m.toList.map Prod.fst).Nodup := by
  rw [Std.ExtTreeMap.map_fst_toList_eq_keys]
  exact m.nodup_keys

theorem get_eq_none_iff {m : Map α} {k : Str} :
    m[k]? = none ↔ m.contains k = false := by
  rw [contains_eq_isSome]
  cases m[k]? <;> simp

/-- Inserting a list of entries: what is found comes from the list or was there. -/
theorem get_foldl_insert {l : List (Str × α)} {m : Map α} {k : Str} {v : α}
    (h : (l.foldl (fun acc entry => acc.insert entry.1 entry.2) m)[k]? = some v) :
    (k, v) ∈ l ∨ m[k]? = some v := by
  induction l generalizing m with
  | nil => exact Or.inr h
  | cons entry l ih =>
      rcases ih h with hin | hm
      · exact Or.inl (List.mem_cons_of_mem _ hin)
      · rw [get_insert] at hm
        split at hm
        · rename_i hk
          cases hm
          left
          rw [← hk]
          exact List.mem_cons_self
        · exact Or.inr hm

theorem mem_of_get_ofList {l : List (Str × α)} {k : Str} {v : α}
    (h : (Std.ExtTreeMap.ofList l : Map α)[k]? = some v) : (k, v) ∈ l := by
  rw [Std.ExtTreeMap.ofList_eq_foldl] at h
  rcases get_foldl_insert h with hin | hm
  · exact hin
  · simp at hm

/-- A key that a fold never drops is there in the end when it was there at the
start, or when some element adds it. -/
theorem contains_foldl {f : Map α → β → Map α} {k : Str}
    (hkeep : ∀ acc x, acc.contains k = true → (f acc x).contains k = true) {l : List β}
    {acc : Map α} (h : acc.contains k = true ∨ ∃ x ∈ l, ∀ acc, (f acc x).contains k = true) :
    (l.foldl f acc).contains k = true := by
  induction l generalizing acc with
  | nil => exact h.resolve_right fun ⟨x, hx, _⟩ => nomatch hx
  | cons y l ih =>
      refine ih ?_
      rcases h with hacc | ⟨x, hx, hadd⟩
      · exact Or.inl (hkeep acc y hacc)
      · rcases List.mem_cons.mp hx with rfl | hx
        · exact Or.inl (hadd acc)
        · exact Or.inr ⟨x, hx, hadd⟩

theorem ofList_toList (m : Map α) : (Std.ExtTreeMap.ofList m.toList : Map α) = m := by
  refine Std.ExtTreeMap.ext_getElem? fun k => ?_
  cases hm : m[k]? with
  | some v =>
      exact Std.ExtTreeMap.getElem?_ofList_of_mem Std.ReflCmp.compare_self
        Std.ExtTreeMap.distinct_keys_toList (mem_toList.mpr hm)
  | none =>
      refine Option.eq_none_iff_forall_ne_some.mpr fun v hv => ?_
      rw [mem_toList.mp (mem_of_get_ofList hv)] at hm
      cases hm

/-- The order of texts is the one that maps are kept in. -/
theorem compare_eq_lt {a b : Str} : @compare Str List.instOrd a b = .lt ↔ a < b := by
  rw [List.compare_eq_compareLex]
  induction a generalizing b with
  | nil => cases b <;> simp [List.compareLex]
  | cons c a ih =>
      cases b with
      | nil => simp [List.compareLex]
      | cons d b =>
          rw [List.compareLex, List.cons_lt_cons_iff, ← ih]
          cases h : compare c d with
          | lt => simp [compare_lt_iff_lt.mp h]
          | gt =>
              have hlt : d < c := compare_gt_iff_gt.mp h
              simp [hlt.ne', hlt.le]
          | eq =>
              cases Std.LawfulEqCmp.eq_of_compare h
              simp

/-- What is found in a map made from entries with different keys. -/
theorem get_ofList {l : List (Str × α)} (h : (l.map Prod.fst).Nodup) {k : Str} {v : α} :
    (Std.ExtTreeMap.ofList l : Map α)[k]? = some v ↔ (k, v) ∈ l := by
  have hdistinct : l.Pairwise fun a b => ¬ compare a.1 b.1 = .eq :=
    (List.pairwise_map.mp h).imp fun hne heq => hne (Std.LawfulEqCmp.eq_of_compare heq)
  exact ⟨mem_of_get_ofList, fun hin =>
    Std.ExtTreeMap.getElem?_ofList_of_mem Std.ReflCmp.compare_self hdistinct hin⟩

/-- A map made from entries with different keys lists them in key order. -/
theorem toList_ofList {l l' : List (Str × α)} (h : l'.Perm l)
    (hsorted : l'.Pairwise fun a b => a.1 < b.1) :
    (Std.ExtTreeMap.ofList l : Map α).toList = l' := by
  have hkeys : (l'.map Prod.fst).Nodup :=
    List.pairwise_map.mpr (hsorted.imp fun hlt => ne_of_lt hlt)
  have hordered : (Std.ExtTreeMap.ofList l : Map α).toList.Pairwise fun a b => a.1 < b.1 := by
    refine List.Pairwise.imp ?_ Std.ExtTreeMap.ordered_keys_toList
    intro a b hlt
    exact compare_eq_lt.mp hlt
  have hnodup {l : List (Str × α)} (h : l.Pairwise fun a b => a.1 < b.1) : l.Nodup :=
    h.imp fun hlt heq => absurd (congrArg Prod.fst heq) (ne_of_lt hlt)
  -- Both lists are sorted by key and hold the same entries.
  have hperm : (Std.ExtTreeMap.ofList l : Map α).toList.Perm l' := by
    refine (List.perm_ext_iff_of_nodup (hnodup hordered) (hnodup hsorted)).mpr ?_
    rintro ⟨k, v⟩
    rw [mem_toList, get_ofList ((h.map Prod.fst).nodup_iff.mp hkeys), h.mem_iff]
  exact hperm.eq_of_pairwise (fun a b _ _ hab hba => absurd hab (not_lt_of_gt hba)) hordered
    hsorted

theorem mem_valuesOf {m : Map α} {v : α} : v ∈ valuesOf m ↔ ∃ k : Str, m[k]? = some v := by
  simp [valuesOf]

/-- A map rebuilt from some of its values, each entered under its own key. -/
theorem get_foldl_valuesOf_bind {m : Map α} {key : α → Str} (f : α → Option β)
    (hkey : ∀ {k : Str} {v : α}, m[k]? = some v → key v = k) (k : Str) :
    ((valuesOf m).foldl
      (fun acc v => match f v with
        | some b => acc.insert (key v) b
        | none => acc) (∅ : Map β))[k]? = m[k]?.bind f := by
  have hfold : ∀ (l : List (Str × α)) (acc : Map β),
      (∀ entry ∈ l, m[entry.1]? = some entry.2) →
      (l.map Prod.snd).foldl
        (fun acc v => match f v with
          | some b => acc.insert (key v) b
          | none => acc) acc =
        (l.filterMap fun entry => (f entry.2).map (entry.1, ·)).foldl
          (fun acc entry => acc.insert entry.1 entry.2) acc := by
    intro l
    induction l with
    | nil => exact fun acc _ => rfl
    | cons entry l ih =>
        intro acc hl
        have hentry := hkey (hl entry List.mem_cons_self)
        have hrest := fun acc => ih acc fun e he => hl e (List.mem_cons_of_mem entry he)
        cases hf : f entry.2 with
        | none => simpa [hf] using hrest acc
        | some b => simpa [hf, hentry] using hrest (acc.insert entry.1 b)
  have hmap := Std.ExtTreeMap.getElem?_filterMap' (t := m) (f := fun _ v => f v) (k := k)
  rw [valuesOf, hfold _ _ fun entry hentry => mem_toList.mp hentry, ← hmap,
    ← ofList_toList (m.filterMap fun _ v => f v), Std.ExtTreeMap.ofList_eq_foldl,
    Std.ExtTreeMap.toList_filterMap]

/-- A map rebuilt from its values, each entered under its own key. -/
theorem get_foldl_valuesOf {m : Map α} {key : α → Str} (f : α → β)
    (hkey : ∀ {k : Str} {v : α}, m[k]? = some v → key v = k) (k : Str) :
    ((valuesOf m).foldl (fun acc v => acc.insert (key v) (f v)) (∅ : Map β))[k]? =
      m[k]?.map f := by
  rw [Option.map_eq_bind]
  exact get_foldl_valuesOf_bind (fun v => some (f v)) hkey k

end Map
end Bpm
