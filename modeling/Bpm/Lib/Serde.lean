import Bpm.Lib.Json

/-!
# Codecs for JSON values

A `Codec` writes a value and reads it back, and carries the proof that reading
undoes writing.  A `Fields` does the same for some fields of an object: a field
is required, or it has a default and is left out when the value says so.  Groups
of fields with different names are put together by `prod`, and `record` makes the
codec of a structure.

Reading an object ignores fields that it does not know and refuses a known field
that is given twice; reading a map keeps the last value of a key.
-/

namespace Bpm
namespace Serde

variable {α β : Type}

/-- A way to write values of a type as JSON, and to read them back. -/
structure Codec (α : Type) where
  encode : α → Json
  decode : Json → Option α
  decode_encode : ∀ a, decode (encode a) = some a

/-- Some fields of an object. -/
structure Fields (α : Type) where
  names : List Str
  encode : α → List (Str × Json)
  decode : (Str → Option Json) → Option α
  nodup : names.Nodup
  encode_names : ∀ a, ((encode a).map Prod.fst).Sublist names
  decode_congr : ∀ f g, (∀ name ∈ names, f name = g name) → decode f = decode g
  decode_encode : ∀ a, decode (fun name => (encode a).lookup name) = some a

namespace Codec

def str : Codec Str where
  encode := .str
  decode
    | .str value => some value
    | _ => none
  decode_encode _ := rfl

def bool : Codec Bool where
  encode := .bool
  decode
    | .bool value => some value
    | _ => none
  decode_encode _ := rfl

/-- Unsigned 32-bit numbers. -/
def u32 : Codec UInt32 where
  encode value := .int value.toNat
  decode
    | .int value => if 0 ≤ value ∧ value < 4294967296 then some (.ofNat value.toNat) else none
    | _ => none
  decode_encode value := by
    have hlt : value.toNat < 4294967296 := value.toNat_lt
    have hbound : (0 : Int) ≤ value.toNat ∧ (value.toNat : Int) < 4294967296 := by omega
    dsimp only
    rw [if_pos hbound]
    simp

/-- `null` for a missing value. -/
def option (c : Codec α) (hnull : ∀ a, c.encode a ≠ .null) : Codec (Option α) where
  encode
    | none => .null
    | some a => c.encode a
  decode
    | .null => some none
    | value => (c.decode value).map some
  decode_encode a := by
    cases a with
    | none => rfl
    | some a =>
        have hne := hnull a
        have hdecode := c.decode_encode a
        dsimp only
        generalize c.encode a = value at hne hdecode
        cases value with
        | null => exact absurd rfl hne
        | _ => simp [hdecode]

/-- Reading a list of values, all of which must be readable. -/
theorem mapM_encode (c : Codec α) (xs : List α) :
    (xs.map c.encode).mapM c.decode = some xs := by
  induction xs with
  | nil => rfl
  | cons x xs ih => simp [c.decode_encode x, ih]

def vec (c : Codec α) : Codec (List α) where
  encode xs := .arr (xs.map c.encode)
  decode
    | .arr items => items.mapM c.decode
    | _ => none
  decode_encode xs := mapM_encode c xs

/-- One entry of a map. -/
def decodeEntry (c : Codec α) (entry : Str × Json) : Option (Str × α) :=
  (c.decode entry.2).map (entry.1, ·)

theorem mapM_encodeEntry (c : Codec α) (xs : List (Str × α)) :
    (xs.map fun entry => (entry.1, c.encode entry.2)).mapM (decodeEntry c) = some xs := by
  induction xs with
  | nil => rfl
  | cons x xs ih => simp [decodeEntry, c.decode_encode, ih]

/-- Maps, written in key order. -/
def map (c : Codec α) : Codec (Map α) where
  encode m := .obj (m.toList.map fun entry => (entry.1, c.encode entry.2))
  decode
    | .obj entries => (entries.mapM (decodeEntry c)).map (Std.ExtTreeMap.ofList · compare)
    | _ => none
  decode_encode m := by
    simp only [mapM_encodeEntry c m.toList, Option.map_some, Map.ofList_toList]

/-- Sets of texts, written as a list in order. -/
def set : Codec (Map Unit) where
  encode m := .arr (m.toList.map fun entry => .str entry.1)
  decode
    | .arr items =>
        (items.mapM str.decode).map fun keys => Std.ExtTreeMap.ofList (keys.map (·, ())) compare
    | _ => none
  decode_encode m := by
    have hitems : (m.toList.map fun entry => Json.str entry.1).mapM str.decode =
        some (m.toList.map Prod.fst) := by
      have hlist := mapM_encode str (m.toList.map Prod.fst)
      rw [List.map_map] at hlist
      exact hlist
    have hpairs : (m.toList.map Prod.fst).map (fun key => (key, ())) = m.toList := by
      rw [List.map_map]
      exact List.map_id _
    simp only [hitems, Option.map_some, hpairs, Map.ofList_toList]

/-- The fields of an object that are known are given once. -/
def knownOnce (names : List Str) (entries : List (Str × Json)) : Bool :=
  decide ((entries.map Prod.fst).filter (names.contains ·)).Nodup

/-- The codec of a structure with the given fields. -/
def record (fields : Fields β) (build : β → α) (parts : α → β)
    (hparts : ∀ a, build (parts a) = a) : Codec α where
  encode a := .obj (fields.encode (parts a))
  decode
    | .obj entries =>
        if knownOnce fields.names entries then
          (fields.decode fun name => entries.lookup name).map build
        else none
    | _ => none
  decode_encode a := by
    have hnodup : ((fields.encode (parts a)).map Prod.fst).Nodup :=
      (fields.encode_names (parts a)).nodup fields.nodup
    have honce : knownOnce fields.names (fields.encode (parts a)) = true :=
      decide_eq_true (hnodup.filter _)
    dsimp only
    rw [if_pos honce, fields.decode_encode, Option.map_some, hparts]

theorem record_decode {fields : Fields β} {build : β → α} {parts : α → β}
    {hparts : ∀ a, build (parts a) = a} {entries : List (Str × Json)}
    (h : knownOnce fields.names entries = true) :
    (record fields build parts hparts).decode (.obj entries) =
      (fields.decode fun name => entries.lookup name).map build :=
  if_pos h

end Codec

namespace Fields

/-- A field that must be there. -/
def required (name : Str) (c : Codec α) : Fields α where
  names := [name]
  encode a := [(name, c.encode a)]
  decode look := (look name).bind c.decode
  nodup := List.nodup_singleton name
  encode_names _ := List.Sublist.refl _
  decode_congr f g h := by rw [h name List.mem_cons_self]
  decode_encode a := by simp [List.lookup, c.decode_encode]

/-- A field with a default, which may be left out when `skip` says so. -/
def defaulted (name : Str) (c : Codec α) (default : α) (skip : α → Bool)
    (hskip : ∀ a, skip a = true → a = default) : Fields α where
  names := [name]
  encode a := if skip a then [] else [(name, c.encode a)]
  decode look :=
    match look name with
    | none => some default
    | some value => c.decode value
  nodup := List.nodup_singleton name
  encode_names a := by
    split
    · exact List.nil_sublist _
    · exact List.Sublist.refl _
  decode_congr f g h := by rw [h name List.mem_cons_self]
  decode_encode a := by
    by_cases h : skip a = true
    · rw [if_pos h, hskip a h]
      rfl
    · rw [if_neg h]
      simp [List.lookup, c.decode_encode]

theorem defaulted_decode {name : Str} {c : Codec α} {default : α} {skip : α → Bool}
    {hskip : ∀ a, skip a = true → a = default} {look : Str → Option Json} {a : α}
    (h : look name = some (c.encode a)) :
    (defaulted name c default skip hskip).decode look = some a := by
  simp [defaulted, h, c.decode_encode]

theorem lookup_none {fields : Fields α} {a : α} {name : Str} (h : name ∉ fields.names) :
    (fields.encode a).lookup name = none := by
  rw [List.lookup_eq_none_iff]
  intro entry hentry
  have hin : entry.1 ∈ fields.names :=
    (fields.encode_names a).subset (List.mem_map_of_mem hentry)
  rw [bne_iff_ne]
  rintro rfl
  exact h hin

/-- Two groups of fields with different names. -/
def prod (f : Fields α) (g : Fields β) (hnodup : (f.names ++ g.names).Nodup) :
    Fields (α × β) where
  names := f.names ++ g.names
  encode p := f.encode p.1 ++ g.encode p.2
  decode look := (f.decode look).bind fun a => (g.decode look).map (a, ·)
  nodup := hnodup
  encode_names p := by
    rw [List.map_append]
    exact (f.encode_names p.1).append (g.encode_names p.2)
  decode_congr look look' h := by
    rw [f.decode_congr look look' fun name hname => h name (List.mem_append_left _ hname),
      g.decode_congr look look' fun name hname => h name (List.mem_append_right _ hname)]
  decode_encode p := by
    have hdisjoint := List.disjoint_of_nodup_append hnodup
    have hleft : f.decode (fun name => (f.encode p.1 ++ g.encode p.2).lookup name) =
        some p.1 := by
      rw [← f.decode_encode p.1]
      refine f.decode_congr _ _ fun name hname => ?_
      have hnone : (g.encode p.2).lookup name = none :=
        lookup_none fun hin => hdisjoint hname hin
      rw [List.lookup_append, hnone, Option.or_none]
    have hright : g.decode (fun name => (f.encode p.1 ++ g.encode p.2).lookup name) =
        some p.2 := by
      rw [← g.decode_encode p.2]
      refine g.decode_congr _ _ fun name hname => ?_
      have hnone : (f.encode p.1).lookup name = none :=
        lookup_none fun hin => hdisjoint hin hname
      rw [List.lookup_append, hnone, Option.none_or]
    rw [hleft, hright]
    rfl

theorem prod_decode {f : Fields α} {g : Fields β} {hnodup : (f.names ++ g.names).Nodup}
    {look : Str → Option Json} {a : α} {b : β} (hf : f.decode look = some a)
    (hg : g.decode look = some b) : (prod f g hnodup).decode look = some (a, b) := by
  simp [prod, hf, hg]

end Fields
end Serde
end Bpm
