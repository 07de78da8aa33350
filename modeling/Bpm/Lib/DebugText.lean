import Bpm.Lib.Bytes
import Bpm.Lib.OrdMap
import Bpm.Lib.PrefixCode

/-!
# Debug texts

What `{:?}` prints for texts, paths, options, lists, ordered maps and derived structures.
Quoted texts end at their closing quotation mark, so all of these are prefix-free, and
they determine what they print.  Which characters are printed as they are is up to the
Unicode tables of the standard library.
-/

namespace Bpm
namespace DebugText

open Text

variable {α : Type} (printable : Char → Bool)

/-- The characters with a short escape, and their letters. -/
def shortEscapes : List (Char × Char) :=
  [('\x00', '0'), ('\t', 't'), ('\r', 'r'), ('\n', 'n'), ('"', '"'), ('\\', '\\'), ('\x27', '\x27')]

/-- The letter of a short escape; the single quotation mark has one in paths only. -/
def shortEscape (inPath : Bool) (c : Char) : Option Char :=
  (shortEscapes.find? fun e => e.1 == c && (inPath || c != '\x27')).map Prod.snd

def escape (inPath : Bool) (c : Char) : Str :=
  match shortEscape inPath c with
  | some letter => ['\\', letter]
  | none =>
      if printable c then [c]
      else ['\\', 'u', '{'] ++ Nat.toDigits 16 c.toNat ++ ['}']

def quoted (inPath : Bool) (s : Str) : Str := '"' :: endedBy (escape printable inPath) '"' s

def text (s : Str) : Str := quoted printable false s

def path (s : Str) : Str := quoted printable true s

def option (p : α → Str) : Option α → Str
  | none => ['N', 'o', 'n', 'e']
  | some a => ['S', 'o', 'm', 'e', '('] ++ p a ++ [')']

/-- What stands between the elements of a list and between the fields of a structure. -/
def comma : Str := [',', ' ']

/-- What stands between a name and its value. -/
def colon : Str := [':', ' ']

def list (p : α → Str) (l : List α) : Str := bracketed p comma '[' ']' l

def mapEntry (p : Str × α → Str) (e : Str × α) : Str := text printable e.1 ++ colon ++ p e

/-- The entries of an ordered map in key order. -/
def map (p : Str × α → Str) (m : Map α) : Str :=
  bracketed (mapEntry printable p) comma '{' '}' m.toList

/-- A derived structure: its name, and each field with what is printed for it. -/
def record (name : Str) (fields : List (Str × (α → Str))) (a : α) : Str :=
  name ++ ([' ', '{', ' '] ++
    (separated (fun field => field.1 ++ (colon ++ field.2 a)) comma fields ++ [' ', '}']))

def flag : Bool → Str
  | true => ['t', 'r', 'u', 'e']
  | false => ['f', 'a', 'l', 's', 'e']

def nat (n : Nat) : Str := Nat.toDigits 10 n

/-- The digits after the point, of a number of thousandths. -/
def thousandths (n : Nat) : Str :=
  if n = 0 then []
  else '.' :: (List.replicate (3 - (nat n).length) '0' ++ nat n).rdropWhile (· = '0')

/-- A duration of whole milliseconds. -/
def millis (n : Nat) : Str :=
  if 1000 ≤ n then nat (n / 1000) ++ thousandths (n % 1000) ++ lit "s"
  else if 0 < n then nat n ++ lit "ms"
  else lit "0ns"

example : millis 1050 = lit "1.05s" := by decide

/-! ## Escapes -/

theorem digitChar_inj {i j : Nat} (hi : i < 16) (hj : j < 16)
    (h : i.digitChar = j.digitChar) : i = j := by
  have hall : ∀ i < 16, ∀ j < 16, i.digitChar = j.digitChar → i = j := by decide
  exact hall i hi j hj h

/-- The digits of a number determine it. -/
theorem toDigits_inj {base n m : Nat} (hbase : 1 < base) (hle : base ≤ 16)
    (h : Nat.toDigits base n = Nat.toDigits base m) : n = m := by
  induction n using Nat.strongRecOn generalizing m with
  | ind n ih =>
    have hlong : ∀ {k : Nat}, base ≤ k → Nat.toDigits base k =
        Nat.toDigits base (k / base) ++ [(k % base).digitChar] :=
      fun hk => Nat.toDigits_of_base_le hbase hk
    have hlength : ∀ {i k : Nat}, base ≤ k → [i.digitChar] ≠ Nat.toDigits base k := by
      intro i k hk heq
      rw [hlong hk] at heq
      have hlengths := congrArg List.length heq
      rw [List.length_append] at hlengths
      have hpos := Nat.length_toDigits_pos (b := base) (n := k / base)
      simp only [List.length_singleton] at hlengths
      omega
    by_cases hn : n < base
    · rw [Nat.toDigits_of_lt_base hn] at h
      by_cases hm : m < base
      · rw [Nat.toDigits_of_lt_base hm] at h
        exact digitChar_inj (by omega) (by omega) (List.singleton_inj.mp h)
      · exact absurd h (hlength (by omega))
    · by_cases hm : m < base
      · rw [Nat.toDigits_of_lt_base hm] at h
        exact absurd h.symm (hlength (by omega))
      · rw [hlong (k := n) (by omega), hlong (k := m) (by omega)] at h
        obtain ⟨hquotient, hlast⟩ := List.append_inj' h rfl
        have hquot := ih (n / base) (Nat.div_lt_self (by omega) hbase) hquotient
        have hmod := digitChar_inj ((Nat.mod_lt n (by omega)).trans_le hle)
          ((Nat.mod_lt m (by omega)).trans_le hle) (List.singleton_inj.mp hlast)
        rw [← Nat.div_add_mod n base, ← Nat.div_add_mod m base, hquot, hmod]

theorem mem_toDigits {base n : Nat} {c : Char} (hbase : 1 < base) (hle : base ≤ 16)
    (h : c ∈ Nat.toDigits base n) : ∃ i < 16, c = i.digitChar := by
  induction n using Nat.strongRecOn with
  | ind n ih =>
    by_cases hn : n < base
    · rw [Nat.toDigits_of_lt_base hn] at h
      exact ⟨n, by omega, List.mem_singleton.mp h⟩
    · rw [Nat.toDigits_of_base_le hbase (by omega), List.mem_append] at h
      rcases h with h | h
      · exact ih (n / base) (Nat.div_lt_self (by omega) hbase) h
      · exact ⟨n % base, (Nat.mod_lt n (by omega)).trans_le hle, List.mem_singleton.mp h⟩

theorem mem_shortEscapes {inPath : Bool} {c letter : Char}
    (h : shortEscape inPath c = some letter) : (c, letter) ∈ shortEscapes := by
  obtain ⟨e, hfind, rfl⟩ := Option.map_eq_some_iff.mp h
  have hsome := List.find?_some hfind
  rw [Bool.and_eq_true, beq_iff_eq] at hsome
  rw [← hsome.1]
  exact List.mem_of_find?_eq_some hfind

theorem shortEscape_inj {inPath : Bool} {c d letter : Char}
    (hc : shortEscape inPath c = some letter) (hd : shortEscape inPath d = some letter) : c = d := by
  have hall : ∀ x ∈ shortEscapes, ∀ y ∈ shortEscapes, x.2 = y.2 → x.1 = y.1 := by decide
  exact hall _ (mem_shortEscapes hc) _ (mem_shortEscapes hd) rfl

theorem shortEscape_letter {inPath : Bool} {c letter : Char}
    (h : shortEscape inPath c = some letter) : letter ≠ 'u' := by
  have hall : ∀ x ∈ shortEscapes, x.2 ≠ 'u' := by decide
  exact hall _ (mem_shortEscapes h)

theorem shortEscape_none {inPath : Bool} {c : Char} (h : shortEscape inPath c = none) :
    c ≠ '\\' ∧ c ≠ '"' := by
  constructor <;> rintro rfl <;> cases inPath <;> exact absurd h (by decide)

variable {printable}

/-- What a character is printed as. -/
theorem escape_cases (printable : Char → Bool) (inPath : Bool) (c : Char) :
    (∃ letter, shortEscape inPath c = some letter ∧ escape printable inPath c = ['\\', letter]) ∨
      (c ≠ '\\' ∧ c ≠ '"' ∧ escape printable inPath c = [c]) ∨
      escape printable inPath c = '\\' :: 'u' :: '{' :: (Nat.toDigits 16 c.toNat ++ ['}']) := by
  unfold escape
  cases hshort : shortEscape inPath c with
  | some letter => exact Or.inl ⟨letter, rfl, rfl⟩
  | none =>
    obtain ⟨hslash, hquote⟩ := shortEscape_none hshort
    dsimp only
    split
    · exact Or.inr (Or.inl ⟨hslash, hquote, rfl⟩)
    · exact Or.inr (Or.inr rfl)

theorem escape_split {inPath : Bool} {c d : Char} {r r' : Str}
    (h : escape printable inPath c ++ r = escape printable inPath d ++ r') : c = d := by
  have hdigits : ∀ {n : Nat}, ∀ x ∈ Nat.toDigits 16 n, (x == '}') = false := by
    intro n x hx
    have hall : ∀ i < 16, (i.digitChar == '}') = false := by decide
    obtain ⟨i, hi, rfl⟩ := mem_toDigits (by decide) (by decide) hx
    exact hall i hi
  rcases escape_cases printable inPath c with ⟨l, hl, hc⟩ | ⟨hslash, -, hc⟩ | hc <;>
    rcases escape_cases printable inPath d with ⟨l', hl', hd⟩ | ⟨hslash', -, hd⟩ | hd <;>
      rw [hc, hd] at h
  · have hletter := (List.cons.inj (List.cons.inj h).2).1
    exact shortEscape_inj hl (hletter ▸ hl')
  · exact absurd (List.cons.inj h).1.symm hslash'
  · exact absurd (List.cons.inj (List.cons.inj h).2).1 (shortEscape_letter hl)
  · exact absurd (List.cons.inj h).1 hslash
  · exact (List.cons.inj h).1
  · exact absurd (List.cons.inj h).1 hslash
  · exact absurd (List.cons.inj (List.cons.inj h).2).1.symm (shortEscape_letter hl')
  · exact absurd (List.cons.inj h).1.symm hslash'
  · have hrest := (List.cons.inj (List.cons.inj (List.cons.inj h).2).2).2
    simp only [List.append_eq, List.append_assoc] at hrest
    have hequal := (Bytes.first_split (p := (· == '}')) hdigits hdigits rfl rfl hrest).1
    have hcode := toDigits_inj (by decide) (by decide) hequal
    exact Char.ext (UInt32.toNat_inj.mp hcode)

theorem escape_prefixFree (inPath : Bool) : PrefixFree (escape printable inPath) where
  word h := by rw [escape_split h]

theorem escape_avoids (inPath : Bool) : Avoids (escape printable inPath) '"' := by
  intro c
  rcases escape_cases printable inPath c with ⟨l, -, hc⟩ | ⟨-, hquote, hc⟩ | hc
  · exact ⟨_, _, hc, by decide⟩
  · exact ⟨_, _, hc, hquote⟩
  · exact ⟨_, _, hc, by decide⟩

/-! ## Quoted texts -/

theorem quoted_split {inPath : Bool} {s t r r' : Str}
    (h : quoted printable inPath s ++ r = quoted printable inPath t ++ r') : s = t ∧ r = r' := by
  obtain ⟨hwords, hrest⟩ := endedBy_split (escape_prefixFree inPath) (escape_avoids inPath)
    (List.cons.inj h).2
  refine ⟨List.map_injective_iff.mpr (fun c d hcd => ?_) hwords, hrest⟩
  have hescaped : escape printable inPath c ++ [] = escape printable inPath d ++ [] := by rw [hcd]
  exact escape_split hescaped

theorem quoted_prefixFree (inPath : Bool) : PrefixFree (quoted printable inPath) where
  word h := by rw [(quoted_split h).1]

theorem quoted_inj (inPath : Bool) : Function.Injective (quoted printable inPath) := by
  intro s t h
  have hquoted : quoted printable inPath s ++ [] = quoted printable inPath t ++ [] := by rw [h]
  exact (quoted_split hquoted).1

theorem text_prefixFree : PrefixFree (text printable) := quoted_prefixFree false

theorem text_inj : Function.Injective (text printable) := quoted_inj false

theorem path_prefixFree : PrefixFree (path printable) := quoted_prefixFree true

theorem path_inj : Function.Injective (path printable) := quoted_inj true

/-! ## Options, lists, maps and structures -/

section Composite

variable {p : α → Str}

theorem option_prefixFree (h : PrefixFree p) : PrefixFree (option p) where
  word := by
    intro o o' r r' heq
    cases o with
    | none =>
      cases o' with
      | none => rfl
      | some a => exact absurd (List.cons.inj heq).1 (by decide)
    | some a =>
      cases o' with
      | none => exact absurd (List.cons.inj heq).1 (by decide)
      | some b =>
        have hcode := ((PrefixFree.const ['S', 'o', 'm', 'e', '(']).append h).append
          (PrefixFree.const [')'])
        exact hcode.word heq

theorem option_inj {o o' : Option α} (heq : option p o = option p o') :
    o.map p = o'.map p := by
  cases o with
  | none =>
    cases o' with
    | none => rfl
    | some a => exact absurd (List.cons.inj heq).1 (by decide)
  | some a =>
    cases o' with
    | none => exact absurd (List.cons.inj heq).1 (by decide)
    | some b =>
      have hbody : ['S', 'o', 'm', 'e', '('] ++ p a = ['S', 'o', 'm', 'e', '('] ++ p b :=
        (List.append_left_inj [')']).mp heq
      rw [Option.map_some, Option.map_some, List.append_cancel_left hbody]

theorem comma_avoids {stop : Char} (h : stop ≠ ',') : Avoids (fun _ : Unit => comma) stop :=
  fun _ => ⟨',', [' '], rfl, h.symm⟩

theorem list_prefixFree (h : PrefixFree p) (hstop : Avoids p ']') : PrefixFree (list p) :=
  bracketed_prefixFree h hstop (comma_avoids (by decide))

theorem list_inj (h : PrefixFree p) (hstop : Avoids p ']') {l m : List α}
    (heq : list p l = list p m) : l.map p = m.map p := by
  have hlists : list p l ++ [] = list p m ++ [] := by rw [heq]
  exact (bracketed_split h hstop (comma_avoids (by decide)) hlists).1

theorem text_avoids {stop : Char} (h : stop ≠ '"') : Avoids (text printable) stop :=
  fun s => ⟨'"', endedBy (escape printable false) '"' s, rfl, h.symm⟩

end Composite

section Maps

variable {p : Str × α → Str}

theorem mapEntry_prefixFree (h : PrefixFree p) : PrefixFree (mapEntry printable p) :=
  ((text_prefixFree.comap Prod.fst).append (PrefixFree.const colon)).append h

theorem mapEntry_avoids : Avoids (mapEntry printable p) '}' := by
  intro e
  exact ⟨'"', _, rfl, by decide⟩

theorem map_prefixFree (h : PrefixFree p) : PrefixFree (map printable p) :=
  (bracketed_prefixFree (mapEntry_prefixFree h) mapEntry_avoids
    (comma_avoids (by decide))).comap fun m : Map α => m.toList

/-- The keys, and what is printed for the entries. -/
theorem map_inj (h : PrefixFree p) {m m' : Map α} (heq : map printable p m = map printable p m') :
    (m.toList.map fun e => (e.1, p e)) = m'.toList.map fun e => (e.1, p e) := by
  have hcode : bracketed (mapEntry printable p) comma '{' '}' m.toList ++ [] =
      bracketed (mapEntry printable p) comma '{' '}' m'.toList ++ [] := congrArg (· ++ []) heq
  have hentries := (bracketed_split (mapEntry_prefixFree h) mapEntry_avoids
    (comma_avoids (by decide)) hcode).1
  refine map_eq_of_map_eq (fun {e e'} hword => ?_) hentries
  unfold mapEntry at hword
  rw [List.append_assoc, List.append_assoc] at hword
  obtain ⟨hkey, hvalue⟩ := text_prefixFree.split hword
  exact Prod.ext (text_inj hkey) (List.append_cancel_left hvalue)

/-- A map to texts. -/
theorem textMap_inj {m m' : Map Str} (heq : map printable (fun e => text printable e.2) m =
    map printable (fun e => text printable e.2) m') : m = m' := by
  have hentries := map_inj (text_prefixFree.comap Prod.snd) heq
  have hlist : m.toList = m'.toList := by
    refine List.map_injective_iff.mpr (fun e e' he => ?_) hentries
    obtain ⟨hkey, hvalue⟩ := Prod.mk.inj he
    exact Prod.ext hkey (text_inj hvalue)
  rw [← Map.ofList_toList m, hlist, Map.ofList_toList]

end Maps

/-- The fields of a structure are told apart, each by its own code. -/
theorem record_split {name : Str} {fields : List (Str × (α → Str))} {a b : α} {r r' : Str}
    (h : ∀ field ∈ fields, PrefixFree field.2)
    (heq : record name fields a ++ r = record name fields b ++ r') :
    (∀ field ∈ fields, field.2 a = field.2 b) ∧ r = r' := by
  unfold record at heq
  simp only [List.append_assoc] at heq
  have hfields : ∀ field ∈ fields, PrefixFree fun a => field.1 ++ (colon ++ field.2 a) :=
    fun field hfield =>
      (PrefixFree.const field.1).append ((PrefixFree.const colon).append (h field hfield))
  have hbody := List.append_cancel_left (List.append_cancel_left heq)
  obtain ⟨hwords, hrest⟩ := separated_split hfields hbody
  exact ⟨fun field hfield =>
      List.append_cancel_left (List.append_cancel_left (hwords field hfield)),
    List.append_cancel_left hrest⟩

theorem record_prefixFree {name : Str} {fields : List (Str × (α → Str))}
    (h : ∀ field ∈ fields, PrefixFree field.2) : PrefixFree (record name fields) where
  word heq := by
    have hrest := (record_split h heq).2
    rw [hrest] at heq
    exact List.append_cancel_right heq

theorem record_inj {name : Str} {fields : List (Str × (α → Str))} {a b : α}
    (h : ∀ field ∈ fields, PrefixFree field.2) (heq : record name fields a = record name fields b) :
    ∀ field ∈ fields, field.2 a = field.2 b := by
  have hrecords : record name fields a ++ [] = record name fields b ++ [] := by rw [heq]
  exact (record_split h hrecords).1

theorem flag_prefixFree : PrefixFree flag where
  word := by
    intro a b r r' heq
    cases a <;> cases b
    · rfl
    · exact absurd (List.cons.inj heq).1 (by decide)
    · exact absurd (List.cons.inj heq).1 (by decide)
    · rfl

/-! ## Numbers -/

theorem null_notMem_nat (n : Nat) : '\x00' ∉ nat n := by
  intro h
  have hall : ∀ i < 16, '\x00' ≠ i.digitChar := by decide
  obtain ⟨i, hi, heq⟩ := mem_toDigits (by decide) (by decide) h
  exact hall i hi heq

theorem null_notMem_millis (n : Nat) : '\x00' ∉ millis n := by
  have hfraction : ∀ n, '\x00' ∉ thousandths n := by
    intro n h
    unfold thousandths at h
    split at h
    · cases h
    · rcases List.mem_cons.mp h with hpoint | h
      · exact absurd hpoint (by decide)
      · rcases List.mem_append.mp ((List.rdropWhile_prefix _ _).subset h) with hzero | hdigit
        · exact absurd (List.eq_of_mem_replicate hzero) (by decide)
        · exact null_notMem_nat n hdigit
  have hs : '\x00' ∉ lit "s" := by decide
  have hms : '\x00' ∉ lit "ms" := by decide
  unfold millis
  split
  · rw [List.mem_append, List.mem_append]
    exact fun h => h.elim (fun h => h.elim (null_notMem_nat _) (hfraction _)) hs
  · split
    · rw [List.mem_append]
      exact fun h => h.elim (null_notMem_nat _) hms
    · decide

end DebugText
end Bpm
