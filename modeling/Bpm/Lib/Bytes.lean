import Bpm.Lib.OrdMap

/-!
# Self-delimiting byte encodings

An encoder writes the part of a value that its view keeps.  It delimits that
view when, in front of any two continuations, equal byte strings come from
values with equal views and leave equal continuations.  Delimiting encoders
compose: sequences, fixed tags, prefixed texts, counted lists, and sections that
are left out when empty.  Lengths are written as 64-bit numbers, so every rule
asks that the encodings fit into an addressable buffer.
-/

namespace Bpm

abbrev Bytes := List UInt8

namespace Bytes

/-- The bytes of a literal tag. -/
def tag (s : String) : Bytes := s.toList.flatMap String.utf8EncodeChar

/-- UTF-8. -/
def utf8 (s : Str) : Bytes := s.flatMap String.utf8EncodeChar

/-- The low `n` bytes of a number, least significant first. -/
def littleEndian : Nat → Nat → Bytes
  | 0, _ => []
  | n + 1, v => UInt8.ofNat v :: littleEndian n (v / 256)

/-- A length as a 64-bit number. -/
def u64 (v : Nat) : Bytes := littleEndian 8 v

/-- The length of the longest addressable buffer, plus one. -/
def addressable : Nat := 2 ^ 63

def Fits (bytes : Bytes) : Prop := bytes.length < addressable

instance (bytes : Bytes) : Decidable (Fits bytes) := inferInstanceAs (Decidable (_ < _))

def field (s : Str) : Bytes := u64 (utf8 s).length ++ utf8 s

def flag (b : Bool) : Bytes := [if b then 1 else 0]

variable {α β γ : Type}

/-- A list behind its number of elements. -/
def counted (write : α → Bytes) (l : List α) : Bytes := u64 l.length ++ l.flatMap write

/-- A map entry: its key, then its value. -/
def entry (write : α → Bytes) (e : Str × α) : Bytes := field e.1 ++ write e.2

/-- `write` determines `view`, whatever follows it. -/
structure Delimits (write : α → Bytes) (view : α → β) : Prop where
  split : ∀ {a b : α} {r r' : Bytes}, Fits (write a) → Fits (write b) →
    write a ++ r = write b ++ r' → view a = view b ∧ r = r'

theorem Fits.left {x y : Bytes} (h : Fits (x ++ y)) : Fits x := by
  unfold Fits at *
  rw [List.length_append] at h
  omega

theorem Fits.right {x y : Bytes} (h : Fits (x ++ y)) : Fits y := by
  unfold Fits at *
  rw [List.length_append] at h
  omega

@[simp] theorem littleEndian_length (n v : Nat) : (littleEndian n v).length = n := by
  induction n generalizing v with
  | zero => rfl
  | succ n ih => simp [littleEndian, ih]

theorem littleEndian_inj {n v w : Nat} (hv : v < 256 ^ n) (hw : w < 256 ^ n)
    (h : littleEndian n v = littleEndian n w) : v = w := by
  induction n generalizing v w with
  | zero =>
      rw [pow_zero] at hv hw
      omega
  | succ n ih =>
      simp only [littleEndian, List.cons.injEq] at h
      obtain ⟨hlow, hhigh⟩ := h
      have hlow : v % 256 = w % 256 := by
        simpa using congrArg UInt8.toNat hlow
      rw [pow_succ] at hv hw
      have hhigh := ih (Nat.div_lt_of_lt_mul (by omega)) (Nat.div_lt_of_lt_mul (by omega)) hhigh
      omega

theorem u64_append_inj {v w : Nat} {r r' : Bytes} (hv : v < addressable) (hw : w < addressable)
    (h : u64 v ++ r = u64 w ++ r') : v = w ∧ r = r' := by
  obtain ⟨hnum, hrest⟩ := List.append_inj h (by simp [u64])
  unfold addressable at hv hw
  exact ⟨littleEndian_inj (by omega) (by omega) hnum, hrest⟩

theorem utf8_inj {s t : Str} (h : utf8 s = utf8 t) : s = t := by
  refine String.ofList_injective (String.toByteArray_inj.mp ?_)
  simp only [String.toByteArray_ofList, List.utf8Encode]
  exact congrArg List.toByteArray h

namespace Delimits

theorem tag (t : Bytes) : Delimits (fun _ : α => t) fun _ => () where
  split _ _ h := ⟨rfl, List.append_cancel_left h⟩

theorem comap {write : α → Bytes} {view : α → β} (h : Delimits write view) (f : γ → α) :
    Delimits (fun c => write (f c)) fun c => view (f c) where
  split ha hb heq := h.split ha hb heq

theorem map {write : α → Bytes} {view : α → β} (h : Delimits write view) (f : β → γ) :
    Delimits write fun a => f (view a) where
  split ha hb heq := by
    obtain ⟨hview, hrest⟩ := h.split ha hb heq
    exact ⟨congrArg f hview, hrest⟩

theorem append {write₁ write₂ : α → Bytes} {view₁ : α → β} {view₂ : α → γ}
    (h₁ : Delimits write₁ view₁) (h₂ : Delimits write₂ view₂) :
    Delimits (fun a => write₁ a ++ write₂ a) fun a => (view₁ a, view₂ a) where
  split ha hb heq := by
    rw [List.append_assoc, List.append_assoc] at heq
    obtain ⟨hview₁, hrest⟩ := h₁.split ha.left hb.left heq
    obtain ⟨hview₂, hrest⟩ := h₂.split ha.right hb.right hrest
    exact ⟨Prod.ext hview₁ hview₂, hrest⟩

theorem field : Delimits Bytes.field fun s => s where
  split hs ht heq := by
    rw [Bytes.field, Bytes.field, List.append_assoc, List.append_assoc] at heq
    obtain ⟨hlen, hrest⟩ := u64_append_inj hs.right ht.right heq
    obtain ⟨hutf8, hrest⟩ := List.append_inj hrest hlen
    exact ⟨utf8_inj hutf8, hrest⟩

theorem flag : Delimits Bytes.flag fun b => b where
  split {a b} _ _ _ _ heq := by
    cases a <;> cases b <;> simp [Bytes.flag] at heq <;> simp [heq]

theorem entry {write : α → Bytes} (h : Delimits write fun a => a) :
    Delimits (Bytes.entry write) fun e => e :=
  (field.comap Prod.fst).append (h.comap Prod.snd)

/-- Elements of a list of known length. -/
theorem flatMap {write : α → Bytes} {view : α → β} (h : Delimits write view) {l m : List α}
    {r r' : Bytes} (hlen : l.length = m.length) (hl : Fits (l.flatMap write))
    (hm : Fits (m.flatMap write)) (heq : l.flatMap write ++ r = m.flatMap write ++ r') :
    l.map view = m.map view ∧ r = r' := by
  induction l generalizing m with
  | nil =>
      cases m with
      | nil => exact ⟨rfl, heq⟩
      | cons b m => cases hlen
  | cons a l ih =>
      cases m with
      | nil => cases hlen
      | cons b m =>
          rw [List.flatMap_cons] at hl hm heq
          rw [List.flatMap_cons, List.append_assoc, List.append_assoc] at heq
          obtain ⟨hview, hrest⟩ := h.split hl.left hm.left heq
          obtain ⟨hviews, hrest⟩ := ih (Nat.succ.inj hlen) hl.right hm.right hrest
          exact ⟨by rw [List.map_cons, List.map_cons, hview, hviews], hrest⟩

/-- Elements that take at least one byte bound their number by the space they take. -/
theorem length_le_flatMap {write : α → Bytes} (hne : ∀ a, write a ≠ []) (l : List α) :
    l.length ≤ (l.flatMap write).length := by
  induction l with
  | nil => exact Nat.le_refl 0
  | cons a l ih =>
      have ha := List.length_pos_iff.mpr (hne a)
      rw [List.flatMap_cons, List.length_append, List.length_cons]
      omega

theorem counted {write : α → Bytes} {view : α → β} (h : Delimits write view)
    (hne : ∀ a, write a ≠ []) : Delimits (Bytes.counted write) (List.map view) where
  split {l m} _ _ hl hm heq := by
    rw [Bytes.counted, Bytes.counted, List.append_assoc, List.append_assoc] at heq
    have hl' := (length_le_flatMap hne l).trans_lt hl.right
    have hm' := (length_le_flatMap hne m).trans_lt hm.right
    obtain ⟨hlen, hrest⟩ := u64_append_inj hl' hm' heq
    exact h.flatMap hlen hl.right hm.right hrest

end Delimits

theorem u64_append_ne_nil (v : Nat) (rest : Bytes) : u64 v ++ rest ≠ [] := by
  simp [u64, littleEndian]

theorem field_ne_nil (s : Str) : field s ≠ [] := u64_append_ne_nil _ _

theorem entry_ne_nil (write : α → Bytes) (e : Str × α) : entry write e ≠ [] := by
  simp [entry, field_ne_nil]

theorem delimits_texts : Delimits (counted field) fun l => l := by
  have h := Delimits.field.counted field_ne_nil
  rwa [show List.map (fun s : Str => s) = fun l => l from funext List.map_id'] at h

/-- A map is determined by its entries in key order. -/
theorem delimits_entries {write : α → Bytes} (h : Delimits write fun a => a) :
    Delimits (fun m : Map α => counted (entry write) m.toList) fun m => m where
  split {m m'} _ _ hm hm' heq := by
    obtain ⟨hview, hrest⟩ := (h.entry.counted (entry_ne_nil write)).split hm hm' heq
    rw [List.map_id', List.map_id'] at hview
    refine ⟨?_, hrest⟩
    rw [← Map.ofList_toList m, hview, Map.ofList_toList]

/-- A section that is left out when there is nothing to say. -/
def trailing (absent : α → Bool) (mark : Bytes) (write : α → Bytes) (a : α) : Bytes :=
  if absent a then [] else mark ++ write a

/-- The first byte of a section and its continuation is the section's own or the
continuation's. -/
theorem head_trailing_append {absent : α → Bool} {mark : Bytes} {write : α → Bytes} {a : α}
    {r : Bytes} {t : Option UInt8} (hmark : mark ≠ []) (ht : mark.head? ≠ t) (hr : r.head? ≠ t) :
    (trailing absent mark write a ++ r).head? ≠ t := by
  unfold trailing
  split
  · exact hr
  · rwa [List.append_assoc, List.head?_append_of_ne_nil _ hmark]

/-- A section in front of a continuation that does not start with its mark. -/
theorem Delimits.trailing_append {absent : α → Bool} {mark : Bytes} {write : α → Bytes}
    {view : α → β} (h : Delimits write view)
    (hempty : ∀ {a b}, absent a = true → absent b = true → view a = view b) {a b : α}
    {r r' : Bytes} (hmark : mark ≠ []) (ha : Fits (trailing absent mark write a))
    (hb : Fits (trailing absent mark write b)) (hr : r.head? ≠ mark.head?)
    (hr' : r'.head? ≠ mark.head?)
    (heq : trailing absent mark write a ++ r = trailing absent mark write b ++ r') :
    view a = view b ∧ r = r' := by
  have hhead : ∀ (x y : Bytes), (mark ++ x ++ y).head? = mark.head? := fun x y => by
    rw [List.append_assoc, List.head?_append_of_ne_nil _ hmark]
  unfold trailing at ha hb heq
  split at heq <;> rename_i hca <;> split at heq <;> rename_i hcb
  · exact ⟨hempty hca hcb, heq⟩
  · rw [List.nil_append] at heq
    exact absurd (heq ▸ hhead _ _) hr
  · rw [List.nil_append] at heq
    exact absurd (heq ▸ hhead _ _) hr'
  · rw [if_neg hca] at ha
    rw [if_neg hcb] at hb
    rw [List.append_assoc, List.append_assoc] at heq
    exact h.split ha.right hb.right (List.append_cancel_left heq)

/-! ## Tagged records -/

/-- A tag and a value. -/
abbrev Record := Bytes × Bytes

/-- A record behind the lengths of its tag (32 bits) and of its value (64 bits). -/
def record (r : Record) : Bytes :=
  littleEndian 4 r.1.length ++ r.1 ++ (u64 r.2.length ++ r.2)

/-- Both lengths fit into their numbers. -/
def Measured (r : Record) : Prop := r.1.length < 2 ^ 32 ∧ r.2.length < 2 ^ 64

instance (r : Record) : Decidable (Measured r) := inferInstanceAs (Decidable (_ ∧ _))

theorem sized_append_inj {n : Nat} {x y r r' : Bytes} (hx : x.length < 256 ^ n)
    (hy : y.length < 256 ^ n)
    (h : littleEndian n x.length ++ (x ++ r) = littleEndian n y.length ++ (y ++ r')) :
    x = y ∧ r = r' := by
  obtain ⟨hsize, hrest⟩ := List.append_inj h (by simp)
  exact List.append_inj hrest (littleEndian_inj hx hy hsize)

theorem record_append_inj {a b : Record} {r r' : Bytes} (ha : Measured a) (hb : Measured b)
    (h : record a ++ r = record b ++ r') : a = b ∧ r = r' := by
  simp only [record, u64, List.append_assoc] at h
  have hbound : (2 : Nat) ^ 32 = 256 ^ 4 ∧ (2 : Nat) ^ 64 = 256 ^ 8 := by decide
  unfold Measured at ha hb
  rw [hbound.1, hbound.2] at ha hb
  obtain ⟨htag, hrest⟩ := sized_append_inj ha.1 hb.1 h
  obtain ⟨hvalue, hrest⟩ := sized_append_inj ha.2 hb.2 hrest
  exact ⟨Prod.ext htag hvalue, hrest⟩

theorem record_ne_nil (r : Record) : record r ≠ [] := by
  simp [record, littleEndian]

/-- A string of elements that end where they say has one reading. -/
theorem flatMap_inj {write : α → Bytes} {view : α → β} {ok : α → Prop} (hne : ∀ a, write a ≠ [])
    (hsplit : ∀ {a b r r'}, ok a → ok b → write a ++ r = write b ++ r' → view a = view b ∧ r = r')
    {l m : List α} (hl : ∀ a ∈ l, ok a) (hm : ∀ a ∈ m, ok a)
    (h : l.flatMap write = m.flatMap write) : l.map view = m.map view := by
  induction l generalizing m with
  | nil =>
      cases m with
      | nil => rfl
      | cons b m => exact absurd (List.append_eq_nil_iff.mp h.symm).1 (hne b)
  | cons a l ih =>
      cases m with
      | nil => exact absurd (List.append_eq_nil_iff.mp h).1 (hne a)
      | cons b m =>
          rw [List.flatMap_cons, List.flatMap_cons] at h
          rw [List.forall_mem_cons] at hl hm
          obtain ⟨hab, hrest⟩ := hsplit hl.1 hm.1 h
          rw [List.map_cons, List.map_cons, hab, ih hl.2 hm.2 hrest]

theorem records_inj {l m : List Record} (hl : ∀ r ∈ l, Measured r) (hm : ∀ r ∈ m, Measured r)
    (h : l.flatMap record = m.flatMap record) : l = m := by
  have hview := @flatMap_inj Record Record record (fun r => r) Measured record_ne_nil record_append_inj l m hl hm h
  rwa [List.map_id', List.map_id'] at hview

/-- The first element that satisfies a test ends what contains none. -/
theorem first_split {p : α → Bool} {l m r r' : List α} {a b : α} (hl : ∀ x ∈ l, p x = false)
    (hm : ∀ x ∈ m, p x = false) (ha : p a = true) (hb : p b = true)
    (h : l ++ a :: r = m ++ b :: r') : l = m ∧ a :: r = b :: r' := by
  have htake : ∀ {k s : List α} {c : α}, (∀ x ∈ k, p x = false) → p c = true →
      (k ++ c :: s).takeWhile (fun x => !p x) = k := by
    intro k s c hk hc
    rw [List.takeWhile_append_of_pos (by simpa using hk), List.takeWhile_cons_of_neg (by simp [hc]),
      List.append_nil]
  have heq : l = m := by
    rw [← htake hl ha (s := r), h, htake hm hb]
  exact ⟨heq, List.append_cancel_left (heq ▸ h)⟩

/-- Blocks of one positive length can be told apart. -/
theorem blocks_inj {f : α → List β} {view : α → γ} {n : Nat} (hlen : ∀ a, (f a).length = n + 1)
    (hview : ∀ a b, f a = f b → view a = view b) {l m : List α}
    (h : l.flatMap f = m.flatMap f) : l.map view = m.map view := by
  induction l generalizing m with
  | nil =>
      cases m with
      | nil => rfl
      | cons b m =>
          have hnil := (List.append_eq_nil_iff.mp h.symm).1
          exact absurd (hnil ▸ hlen b) (by simp)
  | cons a l ih =>
      cases m with
      | nil =>
          have hnil := (List.append_eq_nil_iff.mp h).1
          exact absurd (hnil ▸ hlen a) (by simp)
      | cons b m =>
          rw [List.flatMap_cons, List.flatMap_cons] at h
          obtain ⟨hab, hrest⟩ := List.append_inj h (by rw [hlen, hlen])
          rw [List.map_cons, List.map_cons, hview a b hab, ih hrest]

/-! ## Readers -/

/-- The number that bytes spell, least significant first. -/
def ofLittleEndian : Bytes → Nat
  | [] => 0
  | b :: rest => b.toNat + 256 * ofLittleEndian rest

/-- The first `n` bytes and the rest. -/
def takeExact (n : Nat) (bytes : Bytes) : Option (Bytes × Bytes) :=
  if n ≤ bytes.length then some (bytes.take n, bytes.drop n) else none

/-- The text that bytes encode, if they are UTF-8. -/
def text (bytes : Bytes) : Option Str := bytes.toByteArray.utf8Decode?.map Array.toList

theorem ofLittleEndian_littleEndian {n v : Nat} (h : v < 256 ^ n) :
    ofLittleEndian (littleEndian n v) = v := by
  induction n generalizing v with
  | zero =>
      rw [pow_zero] at h
      have hv : v = 0 := by omega
      rw [hv]
      rfl
  | succ n ih =>
      rw [pow_succ] at h
      rw [littleEndian, ofLittleEndian, ih (Nat.div_lt_of_lt_mul (by omega))]
      simp only [UInt8.toNat_ofNat']
      omega

theorem takeExact_append (x rest : Bytes) : takeExact x.length (x ++ rest) = some (x, rest) := by
  simp [takeExact]

theorem takeExact_eq_some {n : Nat} {input x rest : Bytes} :
    takeExact n input = some (x, rest) ↔ x.length = n ∧ input = x ++ rest := by
  constructor
  · intro h
    unfold takeExact at h
    split at h
    · rename_i hle
      cases h
      exact ⟨List.length_take_of_le hle, (List.take_append_drop n input).symm⟩
    · cases h
  · rintro ⟨rfl, rfl⟩
    exact takeExact_append x rest

theorem ofLittleEndian_lt (bytes : Bytes) : ofLittleEndian bytes < 256 ^ bytes.length := by
  induction bytes with
  | nil => exact Nat.one_pos
  | cons b rest ih =>
      have hb := b.toNat_lt
      rw [ofLittleEndian, List.length_cons, pow_succ]
      omega

theorem littleEndian_ofLittleEndian (bytes : Bytes) :
    littleEndian bytes.length (ofLittleEndian bytes) = bytes := by
  induction bytes with
  | nil => rfl
  | cons b rest ih =>
      have hb := b.toNat_lt
      have hlow : UInt8.ofNat (b.toNat + 256 * ofLittleEndian rest) = b := by
        apply UInt8.toNat_inj.mp
        simp only [UInt8.toNat_ofNat']
        omega
      have hhigh : (b.toNat + 256 * ofLittleEndian rest) / 256 = ofLittleEndian rest := by
        omega
      rw [ofLittleEndian, List.length_cons, littleEndian, hlow, hhigh, ih]

theorem text_utf8 (s : Str) : text (utf8 s) = some s := by
  have henc : (utf8 s).toByteArray = List.utf8Encode s := rfl
  rw [text, henc, List.utf8Decode?_utf8Encode]
  rfl

/-- Only its encoding is read as a text. -/
theorem text_eq_some {bytes : Bytes} {s : Str} : text bytes = some s ↔ bytes = utf8 s := by
  constructor
  · intro h
    unfold text at h
    obtain ⟨chars, hchars, rfl⟩ := Option.map_eq_some_iff.mp h
    have hsome : bytes.toByteArray.utf8Decode?.isSome = true := by rw [hchars]; rfl
    have henc := @ByteArray.utf8Encode_get_utf8Decode? bytes.toByteArray hsome
    rw [Option.get_of_eq_some hsome hchars] at henc
    have hutf8 : chars.toList.utf8Encode = (utf8 chars.toList).toByteArray := rfl
    rw [hutf8] at henc
    exact (List.toByteArray_inj.mp henc).symm
  · rintro rfl
    exact text_utf8 s

end Bytes
end Bpm
