import Bpm.Lib.Bytes

/-!
# Prefix codes

A code is prefix-free when no code word is the beginning of another one, so a word can be
told from what follows it.  Sequences, records and lists of prefix-free codes are
prefix-free again, and their words are equal only if those of their parts are.
-/

namespace Bpm

variable {α β γ δ : Type}

/-- A code word ends where another code word with the same beginning ends. -/
structure PrefixFree (code : α → List γ) : Prop where
  word : ∀ {a b : α} {r r' : List γ}, code a ++ r = code b ++ r' → code a = code b

namespace PrefixFree

variable {p : α → List γ} {q : α → List γ}

theorem const (word : List γ) : PrefixFree fun _ : α => word where
  word _ := rfl

theorem comap (h : PrefixFree p) (f : β → α) : PrefixFree fun b => p (f b) where
  word heq := h.word heq

/-- What follows a code word is determined as well. -/
theorem split (h : PrefixFree p) {a b : α} {r r' : List γ} (heq : p a ++ r = p b ++ r') :
    p a = p b ∧ r = r' := by
  have hword := h.word heq
  rw [hword] at heq
  exact ⟨hword, List.append_cancel_left heq⟩

theorem append (hp : PrefixFree p) (hq : PrefixFree q) : PrefixFree fun a => p a ++ q a where
  word := by
    intro a b r r' heq
    rw [List.append_assoc, List.append_assoc] at heq
    obtain ⟨hword, hrest⟩ := hp.split heq
    rw [hword, hq.word hrest]

/-- Equal sequences have equal parts. -/
theorem append_inj (hp : PrefixFree p) {a b : α} (heq : p a ++ q a = p b ++ q b) :
    p a = p b ∧ q a = q b :=
  hp.split heq

/-- One of two codes whose words begin differently. -/
theorem either {r : α → List γ} {x y : γ} (hp : PrefixFree p) (hq : PrefixFree q) (hxy : x ≠ y)
    (hr : ∀ a, (r a = p a ∧ (p a).head? = some x) ∨ (r a = q a ∧ (q a).head? = some y)) :
    PrefixFree r where
  word := by
    intro a b s s' heq
    rcases hr a with ⟨ha, hx⟩ | ⟨ha, hy⟩ <;> rcases hr b with ⟨hb, hx'⟩ | ⟨hb, hy'⟩ <;>
      rw [ha, hb] at heq ⊢
    · exact hp.word heq
    · have hheads := congrArg List.head? heq
      rw [List.head?_append, List.head?_append, hx, hy'] at hheads
      exact absurd (Option.some.inj hheads) hxy
    · have hheads := congrArg List.head? heq
      rw [List.head?_append, List.head?_append, hy, hx'] at hheads
      exact absurd (Option.some.inj hheads).symm hxy
    · exact hq.word heq

/-- Words without a mark, ended by it. -/
theorem stopped {stop : γ} (h : ∀ a, stop ∉ p a) : PrefixFree fun a => p a ++ [stop] where
  word := by
    classical
    intro a b r r' heq
    rw [List.append_assoc, List.append_assoc] at heq
    have hfree : ∀ a, ∀ x ∈ p a, decide (x = stop) = false :=
      fun a x hx => decide_eq_false fun hstop => h a (hstop ▸ hx)
    have hstop : decide (stop = stop) = true := decide_eq_true rfl
    rw [(Bytes.first_split (hfree a) (hfree b) hstop hstop heq).1]

end PrefixFree

/-! ## Lists -/

/-- The words of a list, and a mark that begins no word. -/
def endedBy (p : α → List γ) (stop : γ) (l : List α) : List γ := l.flatMap p ++ [stop]

section Lists

variable {p : α → List γ} {stop : γ}

/-- No word begins with the mark, and none is empty. -/
def Avoids (p : α → List γ) (stop : γ) : Prop := ∀ a, ∃ x rest, p a = x :: rest ∧ x ≠ stop

/-- Where a list ends no word begins. -/
theorem Avoids.ne (h : Avoids p stop) {a : α} {rest r : List γ} : stop :: r ≠ p a ++ rest := by
  obtain ⟨x, tail, hword, hx⟩ := h a
  rw [hword]
  exact fun heq => hx (List.cons.inj heq).1.symm

theorem endedBy_split (h : PrefixFree p) (hstop : Avoids p stop) {l m : List α} {r r' : List γ}
    (heq : endedBy p stop l ++ r = endedBy p stop m ++ r') : l.map p = m.map p ∧ r = r' := by
  unfold endedBy at heq
  induction l generalizing m with
  | nil =>
    cases m with
    | nil => exact ⟨rfl, (List.cons.inj heq).2⟩
    | cons b m =>
      simp only [List.flatMap_nil, List.nil_append, List.flatMap_cons, List.append_assoc] at heq
      exact absurd heq hstop.ne
  | cons a l ih =>
    cases m with
    | nil =>
      simp only [List.flatMap_nil, List.nil_append, List.flatMap_cons, List.append_assoc] at heq
      exact absurd heq.symm hstop.ne
    | cons b m =>
      simp only [List.flatMap_cons, List.append_assoc] at heq ih
      obtain ⟨hword, hrest⟩ := h.split heq
      obtain ⟨hwords, hrest⟩ := ih hrest
      exact ⟨by rw [List.map_cons, List.map_cons, hword, hwords], hrest⟩

/-- What words determine, lists of words determine for lists. -/
theorem map_eq_of_map_eq {f : α → β} {g : α → δ} (h : ∀ {a b}, f a = f b → g a = g b)
    {l m : List α} (heq : l.map f = m.map f) : l.map g = m.map g := by
  induction l generalizing m with
  | nil => rw [List.map_eq_nil_iff.mp heq.symm]
  | cons a l ih =>
    cases m with
    | nil => cases heq
    | cons b m =>
      rw [List.map_cons, List.map_cons] at heq ⊢
      obtain ⟨hhead, htail⟩ := List.cons.inj heq
      rw [h hhead, ih htail]

/-- The words of a list with a separator between them. -/
def separated (p : α → List γ) (sep : List γ) : List α → List γ
  | [] => []
  | a :: rest => p a ++ rest.flatMap fun b => sep ++ p b

/-- A list between its brackets. -/
def bracketed (p : α → List γ) (sep : List γ) (start stop : γ) (l : List α) : List γ :=
  start :: separated p sep l ++ [stop]

theorem bracketed_split {sep : List γ} {start : γ} (h : PrefixFree p) (hstop : Avoids p stop)
    (hsep : Avoids (fun _ : Unit => sep) stop) {l m : List α} {r r' : List γ}
    (heq : bracketed p sep start stop l ++ r = bracketed p sep start stop m ++ r') :
    l.map p = m.map p ∧ r = r' := by
  have hmore : PrefixFree fun b => sep ++ p b := (PrefixFree.const sep).append h
  have havoids : Avoids (fun b => sep ++ p b) stop := by
    intro b
    obtain ⟨x, rest, hword, hx⟩ := hsep ()
    exact ⟨x, rest ++ p b, congrArg (· ++ p b) hword, hx⟩
  have hbody : separated p sep l ++ ([stop] ++ r) = separated p sep m ++ ([stop] ++ r') := by
    unfold bracketed at heq
    rw [List.append_assoc, List.append_assoc] at heq
    exact (List.cons.inj heq).2
  cases l with
  | nil =>
    cases m with
    | nil => exact ⟨rfl, (List.cons.inj hbody).2⟩
    | cons b m =>
      unfold separated at hbody
      rw [List.append_assoc] at hbody
      exact absurd hbody hstop.ne
  | cons a l =>
    cases m with
    | nil =>
      unfold separated at hbody
      rw [List.append_assoc] at hbody
      exact absurd hbody.symm hstop.ne
    | cons b m =>
      unfold separated at hbody
      rw [List.append_assoc, List.append_assoc] at hbody
      obtain ⟨hword, hrest⟩ := h.split hbody
      rw [← List.append_assoc, ← List.append_assoc] at hrest
      obtain ⟨hwords, hrest⟩ := endedBy_split hmore havoids hrest
      have htail : l.map p = m.map p := map_eq_of_map_eq (fun h => List.append_cancel_left h) hwords
      exact ⟨by rw [List.map_cons, List.map_cons, hword, htail], hrest⟩

theorem bracketed_prefixFree {sep : List γ} {start : γ} (h : PrefixFree p)
    (hstop : Avoids p stop) (hsep : Avoids (fun _ : Unit => sep) stop) :
    PrefixFree (bracketed p sep start stop) where
  word heq := by
    have hrest := (bracketed_split h hstop hsep heq).2
    rw [hrest] at heq
    exact List.append_cancel_right heq

end Lists

/-! ## Records -/

section Records

variable {ι : Type} {code : ι → α → List γ} {sep : List γ} {a b : α} {r r' : List γ}

theorem flatMap_split {l : List ι} (h : ∀ i ∈ l, PrefixFree (code i))
    (heq : (l.flatMap fun i => sep ++ code i a) ++ r = (l.flatMap fun i => sep ++ code i b) ++ r') :
    (∀ i ∈ l, code i a = code i b) ∧ r = r' := by
  induction l with
  | nil => exact ⟨nofun, heq⟩
  | cons i l ih =>
    simp only [List.flatMap_cons, List.append_assoc] at heq ih
    obtain ⟨hword, hrest⟩ := (h i List.mem_cons_self).split (List.append_cancel_left heq)
    obtain ⟨hwords, hrest⟩ := ih (fun k hk => h k (List.mem_cons_of_mem i hk)) hrest
    refine ⟨fun k hk => ?_, hrest⟩
    rcases List.mem_cons.mp hk with rfl | hk
    · exact hword
    · exact hwords k hk

/-- The fields of a record, each with its own code. -/
theorem separated_split {l : List ι} (h : ∀ i ∈ l, PrefixFree (code i))
    (heq : separated (fun i => code i a) sep l ++ r = separated (fun i => code i b) sep l ++ r') :
    (∀ i ∈ l, code i a = code i b) ∧ r = r' := by
  cases l with
  | nil => exact ⟨nofun, heq⟩
  | cons i l =>
    simp only [separated, List.append_assoc] at heq
    obtain ⟨hword, hrest⟩ := (h i List.mem_cons_self).split heq
    obtain ⟨hwords, hrest⟩ := flatMap_split (fun k hk => h k (List.mem_cons_of_mem i hk)) hrest
    refine ⟨fun k hk => ?_, hrest⟩
    rcases List.mem_cons.mp hk with rfl | hk
    · exact hword
    · exact hwords k hk

end Records

/-! ## Codes of codes -/

/-- Of two words one begins the other, if their letters are encoded so. -/
theorem comparable_of_encoded {code : γ → List δ} (hcode : PrefixFree code)
    (hinj : Function.Injective code) {u v : List γ} {r r' : List δ}
    (heq : u.flatMap code ++ r = v.flatMap code ++ r') : (∃ w, v = u ++ w) ∨ ∃ w, u = v ++ w := by
  induction u generalizing v with
  | nil => exact Or.inl ⟨v, rfl⟩
  | cons c u ih =>
    cases v with
    | nil => exact Or.inr ⟨c :: u, rfl⟩
    | cons d v =>
      simp only [List.flatMap_cons, List.append_assoc] at heq
      obtain ⟨hletter, hrest⟩ := hcode.split heq
      obtain rfl := hinj hletter
      rcases ih hrest with ⟨w, rfl⟩ | ⟨w, rfl⟩
      · exact Or.inl ⟨w, rfl⟩
      · exact Or.inr ⟨w, rfl⟩

/-- A prefix-free code stays one when its letters are encoded. -/
theorem PrefixFree.encode {p : α → List γ} (h : PrefixFree p) {code : γ → List δ}
    (hcode : PrefixFree code) (hinj : Function.Injective code) :
    PrefixFree fun a => (p a).flatMap code where
  word := by
    intro a b r r' heq
    rcases comparable_of_encoded hcode hinj heq with ⟨w, hw⟩ | ⟨w, hw⟩
    · have hword : p a ++ w = p b ++ [] := by rw [hw, List.append_nil]
      rw [h.word hword]
    · have hword : p a ++ [] = p b ++ w := by rw [hw, List.append_nil]
      rw [h.word hword]

/-- Texts in UTF-8. -/
theorem PrefixFree.utf8 {p : α → Str} (h : PrefixFree p) : PrefixFree fun a => Bytes.utf8 (p a) := by
  have hletter : ∀ {c d : Char} {r r' : Bytes}, String.utf8EncodeChar c ++ r =
      String.utf8EncodeChar d ++ r' → c = d := by
    intro c d r r' heq
    have hdecode : ∀ (c : Char) (r : Bytes),
        (String.utf8EncodeChar c ++ r).toByteArray.utf8DecodeChar? 0 = some c := by
      intro c r
      rw [List.toByteArray_append]
      exact ByteArray.utf8DecodeChar?_utf8EncodeChar_append
    have hc := hdecode c r
    rw [heq, hdecode d r'] at hc
    exact (Option.some.inj hc).symm
  refine h.encode ⟨fun heq => by rw [hletter heq]⟩ fun c d heq => ?_
  have hletters : String.utf8EncodeChar c ++ [] = String.utf8EncodeChar d ++ [] := by rw [heq]
  exact hletter hletters

end Bpm
