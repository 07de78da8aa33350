import Bpm.Lib.OrdMap

/-!
# Families of ordered maps

The tables of one schema, as a map for each of their names.
-/

namespace Bpm

/-- One map for each table. -/
abbrev Tables (κ α : Type) := κ → Map α

namespace Tables

variable {κ α : Type} [DecidableEq κ]

def set (t : Tables κ α) (k : κ) (id : Str) (v : α) : Tables κ α :=
  fun k' => if k' = k then (t k').insert id v else t k'

def erase (t : Tables κ α) (k : κ) (id : Str) : Tables κ α :=
  fun k' => if k' = k then (t k').erase id else t k'

/-- Keep the rows of one table that satisfy a condition. -/
def filterAt (t : Tables κ α) (k : κ) (p : Str → α → Bool) : Tables κ α :=
  fun k' => if k' = k then (t k').filter p else t k'

theorem get_set (t : Tables κ α) (k k' : κ) (id id' : Str) (v : α) :
    (t.set k id v k')[id']? = if k' = k ∧ id' = id then some v else (t k')[id']? := by
  unfold set
  by_cases hk : k' = k
  · rw [if_pos hk, Map.get_insert]
    simp [hk, eq_comm]
  · simp [hk]

theorem get_erase (t : Tables κ α) (k k' : κ) (id id' : Str) :
    (t.erase k id k')[id']? = if k' = k ∧ id' = id then none else (t k')[id']? := by
  unfold erase
  by_cases hk : k' = k
  · rw [if_pos hk, Std.ExtTreeMap.getElem?_erase]
    by_cases hid : id = id'
    · simp [hk, hid]
    · simp [hk, hid, Ne.symm hid]
  · simp [hk]

theorem get_filterAt (t : Tables κ α) (k k' : κ) (p : Str → α → Bool) (id : Str) :
    (t.filterAt k p k')[id]? =
      if k' = k then ((t k')[id]?).filter (p id) else (t k')[id]? := by
  unfold filterAt
  by_cases hk : k' = k
  · rw [if_pos hk, if_pos hk, Std.ExtTreeMap.getElem?_filter']
  · simp [hk]

omit [DecidableEq κ] in
theorem ext_get {t t' : Tables κ α} (h : ∀ k (id : Str), (t k)[id]? = (t' k)[id]?) : t = t' := by
  funext k
  exact Std.ExtTreeMap.ext_getElem? fun id => h k id

end Tables
end Bpm
