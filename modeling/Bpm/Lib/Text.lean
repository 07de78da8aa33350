import Mathlib

/-!
# Text as character lists

Texts are lists of characters, ordered lexicographically by code point, which
is the order of UTF-8 byte strings.  This module supplies the searching and
splitting operations of a string library together with the facts that later
proofs use: where the last occurrence of a separator lies when a text is
extended on the left, and which texts have no occurrence at all.
-/

namespace Bpm

/-- A text is its list of characters. -/
abbrev Str := List Char

instance : LawfulBEq Str := inferInstance

namespace Text

/-- The characters of a literal. -/
def lit (s : String) : Str := s.toList

/-- The rest of `s` after the prefix `p`, if `s` starts with `p`. -/
def stripPrefix (p s : Str) : Option Str :=
  if p.isPrefixOf s then some (s.drop p.length) else none

/-- Split at the first occurrence of `sep`. -/
def splitOnce (sep : Str) : Str → Option (Str × Str)
  | [] => none
  | c :: cs =>
      if sep.isPrefixOf (c :: cs) then
        some ([], (c :: cs).drop sep.length)
      else
        (splitOnce sep cs).map fun parts => (c :: parts.1, parts.2)

/-- Split at the last occurrence of `sep`. -/
def rsplitOnce (sep : Str) : Str → Option (Str × Str)
  | [] => none
  | c :: cs =>
      match rsplitOnce sep cs with
      | some parts => some (c :: parts.1, parts.2)
      | none =>
          if sep.isPrefixOf (c :: cs) then
            some ([], (c :: cs).drop sep.length)
          else
            none

/-- Unicode's `White_Space` property. -/
def isSpace (c : Char) : Bool :=
  let n := c.toNat
  (9 ≤ n && n ≤ 13) || n == 32 || n == 0x85 || n == 0xA0 || n == 0x1680 ||
    (0x2000 ≤ n && n ≤ 0x200A) || n == 0x2028 || n == 0x2029 || n == 0x202F ||
    n == 0x205F || n == 0x3000

def trimStart (s : Str) : Str := s.dropWhile isSpace

def trimEnd (s : Str) : Str := s.rdropWhile isSpace

/-- Drop white space on both sides. -/
def trim (s : Str) : Str := trimEnd (trimStart s)

/-- Whether `sub` occurs somewhere in `s`. -/
def contains (sub : Str) : Str → Bool
  | [] => sub.isEmpty
  | c :: cs => sub.isPrefixOf (c :: cs) || contains sub cs

/-- Lower the ASCII capitals. -/
def asciiLower (s : Str) : Str := s.map Char.toLower

/-- The maximal runs of non-space characters. -/
def splitWhitespace (s : Str) : List Str :=
  (s.splitOnP isSpace).filter fun word => !word.isEmpty

/-- Scan for `sep`, collecting the current part backwards in `acc`; `skip`
counts the characters of a separator that are still to be dropped. -/
def splitStrAux (sep : Str) : Nat → Str → Str → List Str
  | _, acc, [] => [acc.reverse]
  | skip + 1, acc, _ :: cs => splitStrAux sep skip acc cs
  | 0, acc, c :: cs =>
      if sep.isPrefixOf (c :: cs) then
        acc.reverse :: splitStrAux sep (sep.length - 1) [] cs
      else
        splitStrAux sep 0 (c :: acc) cs

/-- The parts between the occurrences of `sep`, from left to right. -/
def splitStr (sep s : Str) : List Str := splitStrAux sep 0 [] s

/-- The parts with `sep` between them. -/
def join (sep : Str) (parts : List Str) : Str := sep.intercalate parts

def dropRepeats (p : Str) : Nat → Str → Str
  | 0, s => s
  | n + 1, s => if p.isPrefixOf s then dropRepeats p n (s.drop p.length) else s

/-- Drop `suffix` from the end, as often as it stands there. -/
def trimEndMatches (suffix s : Str) : Str :=
  (dropRepeats suffix.reverse s.length s.reverse).reverse

/-- The part behind the last slash. -/
def lastSegment (s : Str) : Str := (s.splitOn '/').getLastD s

theorem stripPrefix_append (p s : Str) : stripPrefix p (p ++ s) = some s := by
  rw [stripPrefix, if_pos (List.isPrefixOf_iff_prefix.mpr (List.prefix_append p s)),
    List.drop_left]

theorem stripPrefix_eq_some {p s rest : Str} (h : stripPrefix p s = some rest) :
    s = p ++ rest := by
  unfold stripPrefix at h
  split at h
  · rename_i hp
    obtain ⟨t, rfl⟩ := List.isPrefixOf_iff_prefix.mp hp
    rw [List.drop_left] at h
    cases h
    rfl
  · cases h

theorem splitOnce_eq_append {sep s a b : Str} (h : splitOnce sep s = some (a, b)) :
    s = a ++ sep ++ b := by
  induction s generalizing a with
  | nil => cases h
  | cons c s ih =>
      unfold splitOnce at h
      split at h
      · rename_i hprefix
        obtain ⟨rfl, rfl⟩ := Prod.mk.inj (Option.some.inj h)
        obtain ⟨t, ht⟩ := List.isPrefixOf_iff_prefix.mp hprefix
        simp [← ht]
      · obtain ⟨⟨x, y⟩, hs, heq⟩ := Option.map_eq_some_iff.mp h
        obtain ⟨rfl, rfl⟩ := Prod.mk.inj heq
        simp [ih hs]

theorem splitOnce_skip {sep a b : Str} (h : ∀ t, t <:+ a → t ≠ [] → ¬sep <+: t ++ b) :
    splitOnce sep (a ++ b) = (splitOnce sep b).map fun parts => (a ++ parts.1, parts.2) := by
  induction a with
  | nil => simp
  | cons c a ih =>
      have hhead := h (c :: a) (List.suffix_refl _) (List.cons_ne_nil _ _)
      have htail : ∀ t, t <:+ a → t ≠ [] → ¬sep <+: t ++ b := by
        intro t ht
        exact h t (ht.trans (List.suffix_cons c a))
      rw [List.cons_append] at hhead ⊢
      rw [splitOnce, if_neg (by rwa [List.isPrefixOf_iff_prefix]), ih htail, Option.map_map]
      rfl

theorem splitOnce_skip_of_notMem {c : Char} {sep a : Str} (h : c ∉ a) (b : Str) :
    splitOnce (c :: sep) (a ++ b) =
      (splitOnce (c :: sep) b).map fun parts => (a ++ parts.1, parts.2) := by
  apply splitOnce_skip
  rintro (_ | ⟨x, t⟩) ht hne hfront
  · exact hne rfl
  · rw [List.cons_append, List.cons_prefix_cons] at hfront
    exact h (ht.subset (hfront.1 ▸ List.mem_cons_self))

theorem splitOnce_of_prefix {sep b : Str} (h : sep ≠ []) :
    splitOnce sep (sep ++ b) = some ([], b) := by
  rcases sep with _ | ⟨c, sep⟩
  · exact absurd rfl h
  · have hprefix : (c :: sep).isPrefixOf (c :: (sep ++ b)) = true :=
      List.isPrefixOf_iff_prefix.mpr (List.prefix_append (c :: sep) b)
    rw [List.cons_append, splitOnce, if_pos hprefix, ← List.cons_append, List.drop_left]

theorem splitOnce_none_iff {sep s : Str} (hsep : sep ≠ []) :
    splitOnce sep s = none ↔ contains sep s = false := by
  induction s with
  | nil =>
      rw [splitOnce, contains]
      simp [hsep]
  | cons c s ih =>
      rw [splitOnce, contains]
      split
      · rename_i h
        simp [h]
      · rename_i h
        simp [h, ih]

theorem contains_eq_true_iff {sub s : Str} : contains sub s = true ↔ ∃ a b, s = a ++ sub ++ b := by
  induction s with
  | nil =>
      rw [contains, List.isEmpty_iff]
      constructor
      · rintro rfl
        exact ⟨[], [], rfl⟩
      · rintro ⟨a, b, h⟩
        exact (List.append_eq_nil_iff.mp (List.append_eq_nil_iff.mp h.symm).1).2
  | cons c s ih =>
      rw [contains, Bool.or_eq_true, List.isPrefixOf_iff_prefix, ih]
      constructor
      · rintro (⟨b, h⟩ | ⟨a, b, rfl⟩)
        · exact ⟨[], b, h.symm⟩
        · exact ⟨c :: a, b, rfl⟩
      · rintro ⟨_ | ⟨x, a⟩, b, h⟩
        · exact .inl ⟨b, h.symm⟩
        · exact .inr ⟨a, b, (List.cons.inj h).2⟩

theorem rsplitOnce_append_left {sep s a b : Str} (p : Str)
    (h : rsplitOnce sep s = some (a, b)) :
    rsplitOnce sep (p ++ s) = some (p ++ a, b) := by
  induction p with
  | nil => simpa using h
  | cons c p ih => simp [rsplitOnce, ih]

/-- The split parts and the separator make up the text again. -/
theorem rsplitOnce_eq_append {sep s a b : Str}
    (h : rsplitOnce sep s = some (a, b)) : s = a ++ sep ++ b := by
  induction s generalizing a b with
  | nil => simp [rsplitOnce] at h
  | cons c s ih =>
      cases hs : rsplitOnce sep s with
      | some parts =>
          obtain ⟨x, y⟩ := parts
          simp only [rsplitOnce, hs, Option.some.injEq, Prod.mk.injEq] at h
          obtain ⟨rfl, rfl⟩ := h
          simp [ih hs]
      | none =>
          simp only [rsplitOnce, hs] at h
          split at h
          · rename_i hprefix
            obtain ⟨rfl, rfl⟩ := Prod.mk.inj (Option.some.inj h)
            obtain ⟨t, ht⟩ := List.isPrefixOf_iff_prefix.mp hprefix
            simp [← ht]
          · cases h

/-- A nonempty separator makes the part before it shorter. -/
theorem rsplitOnce_length_lt {sep s a b : Str} (hsep : sep ≠ [])
    (h : rsplitOnce sep s = some (a, b)) : a.length < s.length := by
  have hs := rsplitOnce_eq_append h
  have hpos : 0 < sep.length := List.length_pos_iff.mpr hsep
  rw [hs]
  simp
  omega

/-- If the last occurrence in `c :: s` is at the front, `s` has none. -/
theorem rsplitOnce_tail_eq_none {sep s b : Str} {c : Char}
    (h : rsplitOnce sep (c :: s) = some ([], b)) : rsplitOnce sep s = none := by
  cases hs : rsplitOnce sep s with
  | none => rfl
  | some parts => simp [rsplitOnce, hs] at h

/-! ## Characters that survive splitting and trimming -/

theorem trimStart_append {a b : Str} (h : trimStart a ≠ []) :
    trimStart (a ++ b) = trimStart a ++ b := by
  unfold trimStart at h ⊢
  rw [List.dropWhile_append]
  simp [h]

theorem trimEnd_append_cons {a b : Str} {c : Char} (hc : isSpace c = false) :
    trimEnd (a ++ c :: b) = a ++ c :: trimEnd b := by
  unfold trimEnd List.rdropWhile
  rw [List.reverse_append, List.reverse_cons, List.append_assoc, List.dropWhile_append]
  split
  · rename_i h
    have hall : b.reverse.dropWhile isSpace = [] := by simpa using h
    simp [hc, hall]
  · simp

theorem mem_of_mem_trim {c : Char} {s : Str} (h : c ∈ trim s) : c ∈ s := by
  have hstart : c ∈ trimStart s := (List.rdropWhile_prefix isSpace _).subset h
  exact (List.dropWhile_suffix isSpace).subset hstart

/-- Trimming removes nothing but white space. -/
theorem mem_trim {c : Char} {s : Str} (hc : c ∈ s) (hspace : isSpace c = false) :
    c ∈ trim s := by
  have hstart : c ∈ trimStart s := by
    have hs : c ∈ s.takeWhile isSpace ++ trimStart s := by
      rw [trimStart, List.takeWhile_append_dropWhile]
      exact hc
    rcases List.mem_append.mp hs with h | h
    · rw [List.mem_takeWhile_imp h] at hspace
      cases hspace
    · exact h
  have hend : c ∈ trim s ++ (trimStart s).rtakeWhile isSpace := by
    rw [trim, trimEnd, List.rdropWhile_append_rtakeWhile]
    exact hstart
  rcases List.mem_append.mp hend with h | h
  · exact h
  · rw [List.mem_rtakeWhile_imp h] at hspace
    cases hspace

theorem exists_mem_splitOnP {p : Char → Bool} {c : Char} {s : Str} (hc : c ∈ s)
    (hp : p c = false) : ∃ part ∈ s.splitOnP p, c ∈ part := by
  induction s with
  | nil => cases hc
  | cons d s ih =>
      rw [List.splitOnP_cons_eq_if_modifyHead]
      split
      · rename_i hd
        have hmem : c ∈ s := by
          rcases List.mem_cons.mp hc with rfl | h
          · simp [hp] at hd
          · exact h
        obtain ⟨part, hpart, hin⟩ := ih hmem
        exact ⟨part, List.mem_cons_of_mem _ hpart, hin⟩
      · cases hs : s.splitOnP p with
        | nil => exact absurd hs (List.splitOnP_ne_nil p s)
        | cons head tail =>
            rw [List.modifyHead_cons]
            rcases List.mem_cons.mp hc with rfl | h
            · exact ⟨c :: head, by simp, by simp⟩
            · obtain ⟨part, hpart, hin⟩ := ih h
              rw [hs] at hpart
              rcases List.mem_cons.mp hpart with rfl | htail
              · exact ⟨d :: part, by simp, by simp [hin]⟩
              · exact ⟨part, by simp [htail], hin⟩

/-- A part between slashes holds none, and nothing that the text does not hold. -/
theorem mem_splitOn {s part : Str} (h : part ∈ s.splitOn '/') : '/' ∉ part ∧ part ⊆ s := by
  induction s generalizing part with
  | nil =>
    rw [List.splitOn_nil, List.mem_singleton] at h
    rw [h]
    exact ⟨List.not_mem_nil, List.nil_subset _⟩
  | cons c s ih =>
    rw [List.splitOn_cons_eq_if_modifyHead] at h
    split at h
    · rcases List.mem_cons.mp h with rfl | h
      · exact ⟨List.not_mem_nil, List.nil_subset _⟩
      · exact ⟨(ih h).1, List.subset_cons_of_subset c (ih h).2⟩
    · rename_i hc
      cases hparts : s.splitOn '/' with
      | nil => exact absurd hparts (List.splitOn_ne_nil _ _)
      | cons first rest =>
        rw [hparts, List.modifyHead_cons] at h
        rcases List.mem_cons.mp h with rfl | h
        · obtain ⟨hslash, hsubset⟩ := ih (hparts ▸ List.mem_cons_self)
          rw [List.mem_cons, not_or]
          exact ⟨⟨fun heq => hc (by rw [heq, beq_self_eq_true]), hslash⟩,
            List.cons_subset_cons c hsubset⟩
        · obtain ⟨hslash, hsubset⟩ := ih (hparts ▸ List.mem_cons_of_mem first h)
          exact ⟨hslash, List.subset_cons_of_subset c hsubset⟩

theorem exists_mem_splitWhitespace {c : Char} {s : Str} (hc : c ∈ s)
    (hspace : isSpace c = false) : ∃ word ∈ splitWhitespace s, c ∈ word := by
  obtain ⟨word, hword, hin⟩ := exists_mem_splitOnP hc hspace
  refine ⟨word, List.mem_filter.mpr ⟨hword, ?_⟩, hin⟩
  cases word with
  | nil => cases hin
  | cons d word => rfl

/-- A character outside the separator is in one of the parts still to come. -/
theorem exists_mem_splitStrAux {sep : Str} {c : Char} (hne : sep ≠ []) (hsep : c ∉ sep)
    {skip : Nat} {acc s : Str} (hc : c ∈ acc ∨ c ∈ s.drop skip) :
    ∃ part ∈ splitStrAux sep skip acc s, c ∈ part := by
  induction s generalizing skip acc with
  | nil =>
      rcases hc with h | h
      · exact ⟨acc.reverse, by simp [splitStrAux], by simpa using h⟩
      · simp at h
  | cons d s ih =>
      cases skip with
      | succ skip =>
          rw [List.drop_succ_cons] at hc
          exact ih hc
      | zero =>
          unfold splitStrAux
          split
          · rename_i hprefix
            rcases hc with h | h
            · exact ⟨acc.reverse, List.mem_cons_self, by simpa using h⟩
            · obtain ⟨t, ht⟩ := List.isPrefixOf_iff_prefix.mp hprefix
              have hin : c ∈ t := by
                rw [List.drop_zero, ← ht, List.mem_append] at h
                exact h.resolve_left hsep
              have hs : s.drop (sep.length - 1) = t := by
                obtain ⟨e, rest, rfl⟩ := List.exists_cons_of_ne_nil hne
                rw [← (List.cons.inj ht).2]
                simp
              obtain ⟨part, hpart, hmem⟩ := ih (Or.inr (hs ▸ hin) : c ∈ [] ∨ _)
              exact ⟨part, List.mem_cons_of_mem _ hpart, hmem⟩
          · refine ih (hc.elim (fun h => Or.inl (List.mem_cons_of_mem _ h)) fun h => ?_)
            rcases List.mem_cons.mp h with rfl | h
            · exact Or.inl List.mem_cons_self
            · exact Or.inr h

theorem exists_mem_splitStr (sep : Str) {c : Char} (hne : sep ≠ []) (hsep : c ∉ sep) {s : Str}
    (hc : c ∈ s) : ∃ part ∈ splitStr sep s, c ∈ part :=
  exists_mem_splitStrAux hne hsep (Or.inr hc)

/-! ## Parts between separators -/

theorem trim_append_space {s w : Str} (hw : ∀ c ∈ w, isSpace c = true) :
    trim (s ++ w) = trim s := by
  have hend : ∀ x : Str, trimEnd (x ++ w) = trimEnd x := by
    intro x
    unfold trimEnd
    rw [List.rdropWhile, List.reverse_append, List.dropWhile_append_of_pos (by simpa using hw),
      List.rdropWhile]
  unfold trim trimStart
  rw [List.dropWhile_append]
  split
  · rename_i hempty
    rw [List.dropWhile_eq_nil_iff.mpr hw, List.isEmpty_iff.mp hempty]
  · exact hend _

theorem trim_space_append {s w : Str} (hw : ∀ c ∈ w, isSpace c = true) :
    trim (w ++ s) = trim s := by
  unfold trim trimStart
  rw [List.dropWhile_append_of_pos hw]

/-- White space in front of the first part changes no trimmed part. -/
theorem map_trim_splitStrAux_acc {sep w : Str} (hw : ∀ c ∈ w, isSpace c = true) (s : Str) :
    ∀ skip acc, (splitStrAux sep skip (acc ++ w.reverse) s).map trim =
      (splitStrAux sep skip acc s).map trim := by
  induction s with
  | nil =>
      intro skip acc
      simp [splitStrAux, trim_space_append hw]
  | cons c s ih =>
      intro skip acc
      cases skip with
      | succ skip => exact ih skip acc
      | zero =>
          unfold splitStrAux
          split
          · simp [trim_space_append hw]
          · exact ih 0 (c :: acc)

/-- Characters outside of the separator do not complete it. -/
theorem isPrefixOf_append_of_notMem {sep s w : Str} (hw : ∀ c ∈ w, c ∉ sep) :
    sep.isPrefixOf (s ++ w) = sep.isPrefixOf s := by
  induction sep generalizing s with
  | nil => simp
  | cons d sep ih =>
      cases s with
      | nil =>
          cases w with
          | nil => rfl
          | cons c w =>
              have hne : d ≠ c := fun h => hw c List.mem_cons_self (h ▸ List.mem_cons_self)
              simp [List.isPrefixOf, hne]
      | cons c s =>
          have hrest := ih (s := s) fun c hc hin => hw c hc (List.mem_cons_of_mem d hin)
          simp [List.isPrefixOf, hrest]

theorem isPrefixOf_nil_of_ne {sep : Str} (hne : sep ≠ []) : sep.isPrefixOf [] = false := by
  cases sep with
  | nil => exact absurd rfl hne
  | cons => rfl

/-- What holds no character of the separator is one part, less what is skipped. -/
theorem splitStrAux_of_notMem {sep w : Str} (hne : sep ≠ []) (hsep : ∀ c ∈ w, c ∉ sep) :
    ∀ skip acc, splitStrAux sep skip acc w = [acc.reverse ++ w.drop skip] := by
  induction w with
  | nil => simp [splitStrAux]
  | cons c w ih =>
      intro skip acc
      have hrest := ih fun d hd => hsep d (List.mem_cons_of_mem c hd)
      cases skip with
      | succ skip =>
          unfold splitStrAux
          rw [hrest skip acc, List.drop_succ_cons]
      | zero =>
          have hnot : sep.isPrefixOf (c :: w) = false := by
            rw [← isPrefixOf_nil_of_ne hne, ← isPrefixOf_append_of_notMem (s := []) hsep,
              List.nil_append]
          unfold splitStrAux
          rw [hnot, if_neg (by decide), hrest 0 (c :: acc)]
          simp

/-- White space behind the last part changes no trimmed part. -/
theorem map_trim_splitStrAux_append {sep w : Str} (hne : sep ≠ [])
    (hw : ∀ c ∈ w, isSpace c = true) (hsep : ∀ c ∈ w, c ∉ sep) (s : Str) :
    ∀ skip acc, (splitStrAux sep skip acc (s ++ w)).map trim =
      (splitStrAux sep skip acc s).map trim := by
  induction s with
  | nil =>
      intro skip acc
      have hdrop : ∀ c ∈ w.drop skip, isSpace c = true := fun c hc =>
        hw c (List.mem_of_mem_drop hc)
      rw [List.nil_append, splitStrAux_of_notMem hne hsep]
      simp [splitStrAux, trim_append_space hdrop]
  | cons c s ih =>
      intro skip acc
      cases skip with
      | succ skip => exact ih skip acc
      | zero =>
          have hsame := isPrefixOf_append_of_notMem (s := c :: s) hsep
          rw [List.cons_append] at hsame ⊢
          unfold splitStrAux
          rw [hsame]
          split
          · rw [List.map_cons, List.map_cons, ih]
          · exact ih 0 (c :: acc)

/-- Characters outside of the separator are collected. -/
theorem splitStrAux_collect {sep : Str} (hne : sep ≠ []) {w : Str} (hsep : ∀ c ∈ w, c ∉ sep)
    (s : Str) : ∀ acc, splitStrAux sep 0 acc (w ++ s) = splitStrAux sep 0 (w.reverse ++ acc) s := by
  induction w with
  | nil => exact fun _ => rfl
  | cons c w ih =>
      intro acc
      obtain ⟨d, tail, rfl⟩ := List.exists_cons_of_ne_nil hne
      have hcd : d ≠ c := fun h => hsep c List.mem_cons_self (h ▸ List.mem_cons_self)
      rw [List.cons_append, splitStrAux]
      rw [if_neg (by simp [List.isPrefixOf, hcd]),
        ih (fun e he => hsep e (List.mem_cons_of_mem c he)) (c :: acc)]
      simp

/-- The characters of a separator are skipped. -/
theorem splitStrAux_skip (sep x s acc : Str) :
    splitStrAux sep x.length acc (x ++ s) = splitStrAux sep 0 acc s := by
  induction x with
  | nil => rfl
  | cons c x ih => exact ih

theorem splitStrAux_separator {sep : Str} (hne : sep ≠ []) (acc s : Str) :
    splitStrAux sep 0 acc (sep ++ s) = acc.reverse :: splitStrAux sep 0 [] s := by
  obtain ⟨d, tail, rfl⟩ := List.exists_cons_of_ne_nil hne
  rw [List.cons_append, splitStrAux, if_pos (by simp [List.isPrefixOf])]
  rw [List.length_cons, Nat.add_sub_cancel, splitStrAux_skip]

/-- What has been collected belongs to the first part. -/
theorem mem_head_splitStrAux (sep : Str) {c : Char} (s : Str) :
    ∀ skip acc, c ∈ acc → ∃ p ∈ splitStrAux sep skip acc s, c ∈ p := by
  induction s with
  | nil => exact fun skip acc hc => ⟨acc.reverse, by simp [splitStrAux], by simpa using hc⟩
  | cons d s ih =>
      intro skip acc hc
      cases skip with
      | succ skip => exact ih skip acc hc
      | zero =>
          unfold splitStrAux
          split
          · exact ⟨acc.reverse, List.mem_cons_self, by simpa using hc⟩
          · exact ih 0 (d :: acc) (List.mem_cons_of_mem d hc)

/-- Trimming a text changes no trimmed part of it. -/
theorem map_trim_splitStr_trim {sep : Str} (hne : sep ≠ [])
    (hsep : ∀ c ∈ sep, isSpace c = false) (s : Str) :
    (splitStr sep (trim s)).map trim = (splitStr sep s).map trim := by
  have hfree : ∀ w : Str, (∀ c ∈ w, isSpace c = true) → ∀ c ∈ w, c ∉ sep := by
    intro w hw c hc hin
    exact absurd (hw c hc) (by simp [hsep c hin])
  have hstart : s = s.takeWhile isSpace ++ trimStart s := List.takeWhile_append_dropWhile.symm
  have hend : trimStart s = trim s ++ (trimStart s).rtakeWhile isSpace :=
    List.rdropWhile_append_rtakeWhile.symm
  have hlead : ∀ c ∈ s.takeWhile isSpace, isSpace c = true := fun c hc =>
    List.mem_takeWhile_imp hc
  have htrail : ∀ c ∈ (trimStart s).rtakeWhile isSpace, isSpace c = true := fun c hc =>
    List.mem_rtakeWhile_imp hc
  have hleft : (splitStr sep s).map trim = (splitStr sep (trimStart s)).map trim := by
    unfold splitStr
    conv_lhs => rw [hstart]
    rw [splitStrAux_collect hne (hfree _ hlead), List.append_nil]
    exact map_trim_splitStrAux_acc hlead _ 0 []
  have hright : (splitStr sep (trimStart s)).map trim = (splitStr sep (trim s)).map trim := by
    unfold splitStr
    conv_lhs => rw [hend]
    exact map_trim_splitStrAux_append hne htrail (hfree _ htrail) (trim s) 0 []
  rw [hleft, hright]

theorem splitStrAux_append {sep : Str} (hne : sep ≠ []) (b : Str) (n : Nat) :
    ∀ a acc : Str, a.length ≤ n → (∀ p ∈ splitStrAux sep 0 acc a, ∀ c ∈ sep, c ∉ p) →
      splitStrAux sep 0 acc (a ++ (sep ++ b)) = splitStrAux sep 0 acc a ++ splitStr sep b := by
  induction n with
  | zero =>
      intro a acc ha _
      rw [List.length_eq_zero_iff.mp (Nat.le_zero.mp ha), List.nil_append,
        splitStrAux_separator hne]
      rfl
  | succ n ih =>
      intro a acc ha hfree
      cases a with
      | nil =>
          rw [List.nil_append, splitStrAux_separator hne]
          rfl
      | cons c a =>
          by_cases hprefix : sep.isPrefixOf (c :: a) = true
          · obtain ⟨rest, hrest⟩ := List.isPrefixOf_iff_prefix.mp hprefix
            rw [← hrest] at ha hfree ⊢
            rw [List.append_assoc, splitStrAux_separator hne, splitStrAux_separator hne]
            rw [splitStrAux_separator hne] at hfree
            have hlen := List.length_pos_iff.mpr hne
            rw [List.length_append] at ha
            rw [ih rest [] (by omega) fun p hp => hfree p (List.mem_cons_of_mem _ hp)]
            rfl
          · -- the character ends up in a part, so it is no character of the separator
            have hstep : splitStrAux sep 0 acc (c :: a) = splitStrAux sep 0 (c :: acc) a := by
              rw [splitStrAux, if_neg hprefix]
            rw [hstep] at hfree ⊢
            have hc : c ∉ sep := by
              intro hin
              obtain ⟨p, hp, hcp⟩ := mem_head_splitStrAux sep a 0 (c :: acc)
                List.mem_cons_self
              exact hfree p hp c hin hcp
            have hcollect := splitStrAux_collect hne (w := [c]) (by simpa using hc)
              (a ++ (sep ++ b)) acc
            rw [List.cons_append]
            rw [List.singleton_append] at hcollect
            rw [hcollect]
            exact ih a (c :: acc) (by simpa using ha) hfree

/-- A separator between two texts ends a part of the first, unless a part of that holds
characters of the separator. -/
theorem splitStr_append {sep : Str} (hne : sep ≠ []) {a : Str}
    (hfree : ∀ p ∈ splitStr sep a, ∀ c ∈ sep, c ∉ p) (b : Str) :
    splitStr sep (a ++ (sep ++ b)) = splitStr sep a ++ splitStr sep b :=
  splitStrAux_append hne b a.length a [] (Nat.le_refl _) hfree

/-! ## Words -/

theorem splitWhitespace_word {w : Str} {c : Char} (hne : w ≠ [])
    (hw : ∀ c ∈ w, isSpace c = false) (hc : isSpace c = true) (s : Str) :
    splitWhitespace (w ++ c :: s) = w :: splitWhitespace s := by
  have hempty : w.isEmpty = false := by simpa using hne
  rw [splitWhitespace, List.splitOnP_append_cons_of_forall_mem hw c hc]
  simp [hempty, splitWhitespace]

/-- The first word of a text that begins with one. -/
theorem head_splitWhitespace {s : Str} (h : ∀ c ∈ s.head?, isSpace c = false) :
    (splitWhitespace s).headD [] = s.takeWhile fun c => !isSpace c := by
  have hword : ∀ c ∈ s.takeWhile (fun c => !isSpace c), isSpace c = false := by
    intro c hc
    simpa using List.mem_takeWhile_imp hc
  have hsplit := List.takeWhile_append_dropWhile (p := fun c => !isSpace c) (l := s)
  rcases hrest : s.dropWhile (fun c => !isSpace c) with _ | ⟨c, rest⟩
  · rw [hrest, List.append_nil] at hsplit
    rw [hsplit] at hword ⊢
    rw [splitWhitespace, List.splitOnP_eq_singleton hword]
    rcases s with _ | ⟨c, s⟩ <;> rfl
  · have hspace : isSpace c = true := by
      have hhead := List.head?_dropWhile_not (fun c => !isSpace c) s
      rw [hrest] at hhead
      simpa using hhead
    have hne : s.takeWhile (fun c => !isSpace c) ≠ [] := by
      intro hnil
      rw [hnil, hrest, List.nil_append] at hsplit
      have hword := h c (by rw [← hsplit]; rfl)
      rw [hspace] at hword
      cases hword
    rw [hrest] at hsplit
    nth_rewrite 1 [← hsplit]
    rw [splitWhitespace_word hne hword hspace]
    rfl

end Text
end Bpm
