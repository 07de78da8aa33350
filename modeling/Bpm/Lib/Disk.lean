import Bpm.Lib.FileTree
import Bpm.Lib.OrdMap

/-!
# Finite file trees

The contents of a disk, as a finite map from locations to objects, and the calls
that read and change it.  Paths are looked up as in `FileTree`, over symbolic links.
A change says at every location what is there afterwards.
-/

namespace Bpm

open FileTree

inductive Object (β : Type)
  | dir
  | file (content : β)
  | link (target : Str)
deriving DecidableEq

namespace Object

variable {β : Type}

/-- What a lookup needs to know of an object. -/
def node : Object β → Node
  | dir => .dir 0
  | file _ => .file 0
  | link target => .link target

def isLink : Object β → Bool
  | link _ => true
  | _ => false

end Object

instance : Std.TransCmp (compare : Loc → Loc → Ordering) := inferInstance

abbrev Disk (β : Type) := Std.ExtTreeMap Loc (Object β) compare

namespace Disk

variable {β : Type}

def shape (d : Disk β) : Tree := fun loc => d[loc]?.map Object.node

/-- The root is a directory. -/
def isDir (d : Disk β) (loc : Loc) : Bool :=
  loc.isEmpty || match d[loc]? with
    | some .dir => true
    | _ => false

/-- Where a path of names, innermost first, leads below `base`. -/
def follow (maxLinks : Nat) (d : Disk β) (base : Loc) (path : Loc) : Outcome :=
  walk d.shape maxLinks base (path.reverse.map .normal)

/-- The location that a path leads to, links followed. -/
def resolve (maxLinks : Nat) (d : Disk β) (base path : Loc) : Option Loc :=
  match follow maxLinks d base path with
  | .found loc => some loc
  | _ => none

/-- The location of the entry that a path names; a link there is not followed. -/
def entry (maxLinks : Nat) (d : Disk β) (base : Loc) : Loc → Option Loc
  | [] => some base
  | name :: parent =>
      (resolve maxLinks d base parent).bind fun loc =>
        if isDir d loc && (d[name :: loc]?).isSome then some (name :: loc) else none

/-- The names in a directory, sorted. -/
def names (d : Disk β) (loc : Loc) : List Str :=
  (d.keys.filterMap fun key => match key with
    | name :: parent => if parent = loc then some name else none
    | [] => none).mergeSort fun a b => a ≤ b

/-- What lies below a location, at places relative to it. -/
def below (d : Disk β) (loc : Loc) : Disk β :=
  Std.ExtTreeMap.ofList (d.toList.filterMap fun (key, object) =>
    if loc <:+ key ∧ key ≠ loc then some (key.take (key.length - loc.length), object)
    else none)

/-- A location and everything below it vanish. -/
def remove (d : Disk β) (loc : Loc) : Disk β := d.filter fun key _ => !decide (loc <:+ key)

/-- The objects of a tree, moved below a location. -/
def moved (tree : Disk β) (loc : Loc) : Disk β :=
  Std.ExtTreeMap.ofList (tree.toList.map fun (key, object) => (key ++ loc, object))

/-- Put the objects of a tree into a directory. -/
def fill (d : Disk β) (loc : Loc) (tree : Disk β) : Disk β := d ∪ moved tree loc

/-- Make a directory and its parents below `base`; a link on the way must lead to a
directory. -/
def createDirAll (maxLinks : Nat) (d : Disk β) (base : Loc) : Loc → Option (Disk β × Loc)
  | [] => if isDir d base then some (d, base) else none
  | name :: parent => do
      let (d, loc) ← createDirAll maxLinks d base parent
      match d[name :: loc]? with
      | none => some (d.insert (name :: loc) .dir, name :: loc)
      | some .dir => some (d, name :: loc)
      | some (.file _) => none
      | some (.link target) =>
          match walk d.shape maxLinks loc (components target) with
          | .found loc' => if isDir d loc' then some (d, loc') else none
          | _ => none

/-- Remove what a path names, if anything. -/
def removeEntry (maxLinks : Nat) (d : Disk β) (base path : Loc) : Disk β :=
  match entry maxLinks d base path with
  | some loc => d.remove loc
  | none => d

/-- Put a tree where a path leads, in place of what is there. -/
def putTree (maxLinks : Nat) (d : Disk β) (base path : Loc) (tree : Disk β) : Option (Disk β) :=
  (createDirAll maxLinks (removeEntry maxLinks d base path) base path).map
    fun made => fill made.1 made.2 tree

section Lookups

variable {d tree : Disk β} {loc key : Loc}

theorem get_insert (d : Disk β) (loc key : Loc) (object : Object β) :
    (d.insert loc object)[key]? = if loc = key then some object else d[key]? := by
  simp [Std.ExtTreeMap.getElem?_insert]

theorem get_remove (d : Disk β) (loc key : Loc) :
    (d.remove loc)[key]? = if loc <:+ key then none else d[key]? := by
  rw [remove, Std.ExtTreeMap.getElem?_filter']
  by_cases h : loc <:+ key
  · simp [h]
  · cases d[key]? <;> simp [h]

theorem mem_toList {object : Object β} : (key, object) ∈ d.toList ↔ d[key]? = some object := by
  simp

/-- What is found in a map from a list with distinct keys. -/
theorem get_ofList {l : List (Loc × Object β)} (h : (l.map Prod.fst).Nodup) {object : Object β} :
    (Std.ExtTreeMap.ofList l : Disk β)[key]? = some object ↔ (key, object) ∈ l := by
  have hdistinct : l.Pairwise fun a b => ¬ compare a.1 b.1 = .eq :=
    (List.pairwise_map.mp h).imp fun hne heq => hne (Std.LawfulEqCmp.eq_of_compare heq)
  constructor
  · intro hget
    by_contra hnot
    by_cases hkey : key ∈ l.map Prod.fst
    · obtain ⟨⟨key', object'⟩, hmem, rfl⟩ := List.mem_map.mp hkey
      rw [Std.ExtTreeMap.getElem?_ofList_of_mem Std.ReflCmp.compare_self hdistinct hmem] at hget
      cases hget
      exact hnot hmem
    · rw [Std.ExtTreeMap.getElem?_ofList_of_contains_eq_false (by simpa using hkey)] at hget
      cases hget
  · intro hmem
    exact Std.ExtTreeMap.getElem?_ofList_of_mem Std.ReflCmp.compare_self hdistinct hmem

theorem keys_nodup (d : Disk β) : (d.toList.map Prod.fst).Nodup := by
  refine List.pairwise_map.mpr (Std.ExtTreeMap.distinct_keys_toList.imp ?_)
  intro a b hne heq
  exact hne (heq ▸ Std.ReflCmp.compare_self)

theorem get_moved {object : Object β} :
    (moved tree loc)[key]? = some object ↔ ∃ rel, key = rel ++ loc ∧ tree[rel]? = some object := by
  have hkeys : ((tree.toList.map fun (key, object) => (key ++ loc, object)).map Prod.fst).Nodup := by
    have hmap := (keys_nodup tree).map fun a b (h : a ++ loc = b ++ loc) => List.append_cancel_right h
    rw [List.map_map] at hmap ⊢
    exact hmap
  rw [moved, get_ofList hkeys, List.mem_map]
  constructor
  · rintro ⟨⟨rel, object'⟩, hmem, heq⟩
    cases heq
    exact ⟨rel, rfl, mem_toList.mp hmem⟩
  · rintro ⟨rel, rfl, hrel⟩
    exact ⟨(rel, object), mem_toList.mpr hrel, rfl⟩

theorem get_moved_append (tree : Disk β) (rel loc : Loc) :
    (moved tree loc)[rel ++ loc]? = tree[rel]? := by
  refine Option.ext fun object => ?_
  rw [get_moved]
  constructor
  · rintro ⟨rel', heq, hget⟩
    rwa [List.append_cancel_right heq]
  · intro hget
    exact ⟨rel, rfl, hget⟩

theorem get_moved_outside (tree : Disk β) (h : ¬loc <:+ key) : (moved tree loc)[key]? = none := by
  refine Option.eq_none_iff_forall_ne_some.mpr fun object hget => ?_
  obtain ⟨rel, rfl, _⟩ := get_moved.mp hget
  exact h (List.suffix_append rel loc)

theorem get_fill_outside (d tree : Disk β) (h : ¬loc <:+ key) :
    (fill d loc tree)[key]? = d[key]? := by
  rw [fill, Std.ExtTreeMap.getElem?_union, get_moved_outside tree h, Option.none_or]

theorem get_fill_inside (d tree : Disk β) (rel loc : Loc) :
    (fill d loc tree)[rel ++ loc]? = tree[rel]?.or d[rel ++ loc]? := by
  rw [fill, Std.ExtTreeMap.getElem?_union, get_moved_append]

end Lookups

end Disk
end Bpm
