import Bpm.Lib.Removal

/-!
# Links put at places

A link or a directory takes the place of whatever is at a location.  Steps that each look
at and change one place only do not meddle with each other, so that a run of them leaves
at each place what its own step leaves there.
-/

namespace Bpm
namespace Disk

open FileTree

variable {β : Type} {maxLinks : Nat} {d d' : Disk β} {loc key : Loc} {target : Str}

/-- A link in place of what is at a location. -/
def relink (d : Disk β) (loc : Loc) (target : Str) : Disk β :=
  (d.remove loc).insert loc (.link target)

/-- A directory in place of anything else at a location. -/
def redir (d : Disk β) (loc : Loc) : Disk β :=
  if isDir d loc then d else (d.remove loc).insert loc .dir

theorem ne_of_outside (hout : ¬loc <:+ key) : loc ≠ key := by
  rintro rfl
  exact hout List.suffix_rfl

theorem get_relink : (relink d loc target)[key]? =
    if loc = key then some (.link target) else if loc <:+ key then none else d[key]? := by
  rw [relink, get_insert, get_remove]

theorem get_redir_outside (hout : ¬loc <:+ key) : (redir d loc)[key]? = d[key]? := by
  unfold redir
  split
  · rfl
  · rw [get_insert, if_neg (ne_of_outside hout), get_remove, if_neg hout]

theorem isDir_redir : isDir (redir d loc) loc := by
  unfold redir
  split
  · assumption
  · simp [isDir]

/-- What a directory holds stays, and nothing is in one that is new. -/
theorem get_redir_below (hbelow : loc <:+ key) (hne : key ≠ loc) :
    (redir d loc)[key]? = if isDir d loc then d[key]? else none := by
  unfold redir
  split
  · rfl
  · rw [get_insert, if_neg (Ne.symm hne), get_remove, if_pos hbelow]

theorem isDir_cons {name : Str} {parent : Loc} :
    isDir d (name :: parent) = true ↔ d[name :: parent]? = some .dir := by
  unfold isDir
  split
  · rename_i hget
    simp [hget]
  · rename_i hget
    simpa using hget

theorem isDir_relink (hdir : isDir d key) (hout : ¬loc <:+ key) :
    isDir (relink d loc target) key := by
  unfold isDir at hdir ⊢
  rw [get_relink, if_neg (ne_of_outside hout), if_neg hout]
  exact hdir

theorem not_cons_suffix (name : Str) (parent : Loc) : ¬name :: parent <:+ parent := fun h => by
  have hlen := h.length_le
  simp at hlen

theorem closed_relink {name : Str} {parent : Loc} (hclosed : Closed d []) (hdir : isDir d parent) :
    Closed (relink d (name :: parent) target) [] := by
  apply (hclosed.remove _).insert
  · unfold isDir at hdir ⊢
    rw [get_remove, if_neg (not_cons_suffix name parent)]
    exact hdir
  · left
    rw [get_remove, if_pos List.suffix_rfl]

theorem closed_redir {name : Str} {parent : Loc} (hclosed : Closed d []) (hdir : isDir d parent) :
    Closed (redir d (name :: parent)) [] := by
  unfold redir
  split
  · exact hclosed
  · apply (hclosed.remove _).insert
    · unfold isDir at hdir ⊢
      rw [get_remove, if_neg (not_cons_suffix name parent)]
      exact hdir
    · exact .inr rfl

/-- A link that is there already. -/
theorem relink_self {name : Str} {parent : Loc} (hclosed : Closed d [])
    (hlink : d[name :: parent]? = some (.link target)) :
    relink d (name :: parent) target = d := by
  apply Std.ExtTreeMap.ext_getElem?
  intro key
  rw [get_relink]
  split
  · rename_i heq
    rw [← heq, hlink]
  · rename_i hne
    split
    · rename_i hbelow
      by_contra hget
      have hdir := hclosed.dir_above (Ne.symm hget) List.nil_suffix (by simp) hbelow hne
      rw [hlink] at hdir
      cases hdir
    · rfl

/-- A new directory is made, or the one that is there is kept. -/
theorem redir_of_none {name : Str} {parent : Loc} (hclosed : Closed d [])
    (hnone : d[name :: parent]? = none) :
    redir d (name :: parent) = d.insert (name :: parent) .dir := by
  have hgone : d.remove (name :: parent) = d := by
    have hremove := remove_of_none hclosed (List.cons_ne_nil name parent)
      (by rwa [List.append_nil])
    rwa [List.append_nil] at hremove
  rw [redir, if_neg, hgone]
  simp [isDir, hnone]

/-- Directories are made where nothing is. -/
theorem closed_mkdirs {path : Loc} (hclosed : Closed d [])
    (hfree : ∀ loc, Way [] path loc → d[loc]? = none ∨ d[loc]? = some .dir) :
    Closed (mkdirs d [] path) [] := by
  induction path with
  | nil => exact hclosed
  | cons name parent ih =>
    have hfree' := fun loc hway => hfree loc (way_cons.mpr (.inr hway))
    have hparent := ih hfree'
    have hdir : isDir (mkdirs d [] parent) parent := by
      cases parent with
      | nil => rfl
      | cons other rest =>
        rw [isDir_cons, get_mkdirs]
        have hway : Way [] (other :: rest) (other :: rest) := by
          have hself : Way [] (other :: rest) (other :: rest ++ []) :=
            way_self (List.cons_ne_nil other rest)
          rwa [List.append_nil] at hself
        rcases hfree' _ hway with hnone | hget
        · rw [if_pos ⟨hway, hnone⟩]
        · rw [if_neg (by simp [hget]), hget]
    rw [mkdirs, List.append_nil]
    split
    · rename_i hnone
      exact hparent.insert hdir (.inr rfl)
    · exact hparent

/-! ## Paths over a link -/

theorem walkWith_dirs_append {follow : Loc → List Component → Outcome} {tree : Tree}
    {names : List Str} {rest : List Component}
    (hdirs : ∀ first, first ≠ [] → first <+: names →
      ∃ mode, tree (first.reverse ++ loc) = some (.dir mode)) :
    walkWith follow tree loc (names.map .normal ++ rest) =
      walkWith follow tree (names.reverse ++ loc) rest := by
  induction names generalizing loc with
  | nil => rfl
  | cons name names ih =>
    obtain ⟨mode, hdir⟩ := hdirs [name] (by simp) ⟨names, rfl⟩
    have hname : tree (name :: loc) = some (.dir mode) := hdir
    rw [List.map_cons, List.cons_append, walkWith, hname]
    show walkWith follow tree (name :: loc) (names.map .normal ++ rest) = _
    rw [ih, List.reverse_cons, List.append_assoc]
    · rfl
    · intro first hne hfirst
      obtain ⟨mode, hdir⟩ := hdirs (name :: first) (by simp) (List.cons_prefix_cons.mpr ⟨rfl, hfirst⟩)
      rw [List.reverse_cons, List.append_assoc] at hdir
      exact ⟨mode, hdir⟩

/-- What is in a directory is where its path says, if it is not a link. -/
theorem resolve_of_object {name : Str} {parent : Loc} {object : Object β}
    (hdirs : ∀ loc, Way [] parent loc → d[loc]? = some .dir)
    (hget : d[name :: parent]? = some object) (hlink : object.isLink = false) :
    resolve maxLinks d [] (name :: parent) = some (name :: parent) := by
  have hshape : d.shape (name :: parent) = some object.node := by
    show d[name :: parent]?.map Object.node = _
    rw [hget]
    rfl
  have hway : ∀ first, first ≠ [] → first <+: parent.reverse →
      ∃ mode, d.shape (first.reverse ++ []) = some (.dir mode) := by
    intro first hne hfirst
    refine ⟨0, ?_⟩
    show d[first.reverse ++ []]?.map Object.node = _
    rw [hdirs _ (way_of_front hne hfirst)]
    rfl
  have hlast : ∀ follow, walkWith follow d.shape parent [.normal name] = .found (name :: parent) := by
    intro follow
    cases object with
    | link target => cases hlink
    | _ => simp [walkWith, hshape, Object.node]
  have hwalk : walk d.shape maxLinks [] ((name :: parent).reverse.map .normal) =
      .found (name :: parent) := by
    rw [List.reverse_cons, List.map_append]
    cases maxLinks with
    | zero =>
      rw [walk, walkWith_dirs_append hway, List.reverse_reverse, List.append_nil]
      exact hlast _
    | succ fuel =>
      rw [walk, walkWith_dirs_append hway, List.reverse_reverse, List.append_nil]
      exact hlast _
  unfold resolve follow
  rw [hwalk]

/-- A step that looks at and changes nothing but what is at and below one place. -/
structure Local (f : Disk β → Disk β) (place : Loc) : Prop where
  outside : ∀ d key, ¬place <:+ key → (f d)[key]? = d[key]?
  inside : ∀ d d', (∀ key, place <:+ key → d[key]? = d'[key]?) →
    ∀ key, place <:+ key → (f d)[key]? = (f d')[key]?

variable {f g : Disk β → Disk β} {place : Loc}

theorem Local.comp (hf : Local f place) (hg : Local g place) : Local (fun d => g (f d)) place := by
  constructor
  · intro d key hout
    show (g (f d))[key]? = d[key]?
    rw [hg.outside _ key hout, hf.outside d key hout]
  · intro d d' hsame
    exact hg.inside _ _ (hf.inside d d' hsame)

theorem Local.mono {around : Loc} (hf : Local f place) (hplace : around <:+ place) :
    Local f around := by
  constructor
  · exact fun d key hout => hf.outside d key fun hin => hout (hplace.trans hin)
  · intro d d' hsame key hkey
    by_cases hin : place <:+ key
    · exact hf.inside d d' (fun key hkey => hsame key (hplace.trans hkey)) key hin
    · rw [hf.outside d key hin, hf.outside d' key hin]
      exact hsame key hkey

theorem local_relink (loc : Loc) (target : Str) :
    Local (fun d : Disk β => relink d loc target) loc := by
  constructor
  · intro d key hout
    show (relink d loc target)[key]? = d[key]?
    rw [get_relink, if_neg (ne_of_outside hout), if_neg hout]
  · intro d d' _ key hkey
    show (relink d loc target)[key]? = (relink d' loc target)[key]?
    rw [get_relink, get_relink, if_pos hkey, if_pos hkey]

theorem local_redir (loc : Loc) : Local (fun d : Disk β => redir d loc) loc := by
  constructor
  · exact fun d key hout => get_redir_outside hout
  · intro d d' hsame key hkey
    have hdir : isDir d loc = isDir d' loc := by
      unfold isDir
      rw [hsame loc List.suffix_rfl]
    show (redir d loc)[key]? = (redir d' loc)[key]?
    unfold redir
    rw [hdir]
    split
    · exact hsame key hkey
    · rw [get_insert, get_insert, get_remove, get_remove, if_pos hkey, if_pos hkey]

/-- A run of steps at one place. -/
theorem local_foldl {α : Type} {f : Disk β → α → Disk β} {l : List α}
    (hlocal : ∀ a ∈ l, Local (fun d => f d a) place) : Local (fun d => l.foldl f d) place := by
  induction l with
  | nil => exact ⟨fun _ _ _ => rfl, fun _ _ hsame => hsame⟩
  | cons a l ih =>
    have hl := ih fun b hb => hlocal b (List.mem_cons_of_mem a hb)
    exact (hlocal a List.mem_cons_self).comp hl

section Run

variable {α : Type} {f : Disk β → α → Disk β} {place : α → Loc} {l : List α}

/-- A run leaves what is at none of its places. -/
theorem foldl_outside (hlocal : ∀ a ∈ l, Local (fun d => f d a) (place a)) (d : Disk β)
    (hout : ∀ a ∈ l, ¬place a <:+ key) : (l.foldl f d)[key]? = d[key]? := by
  induction l generalizing d with
  | nil => rfl
  | cons a l ih =>
    rw [List.foldl_cons, ih (fun b hb => hlocal b (List.mem_cons_of_mem a hb)) _
      fun b hb => hout b (List.mem_cons_of_mem a hb)]
    exact (hlocal a List.mem_cons_self).outside d key (hout a List.mem_cons_self)

/-- Nothing is at or below two of the places. -/
def Unshared (place : α → Loc) (l : List α) : Prop :=
  l.Pairwise fun a b => ∀ key, place a <:+ key → ¬place b <:+ key

/-- A run leaves at each of its places what the step there leaves. -/
theorem foldl_inside (hlocal : ∀ a ∈ l, Local (fun d => f d a) (place a))
    (hunshared : Unshared place l) (d : Disk β) {a : α} (ha : a ∈ l) (hkey : place a <:+ key) :
    (l.foldl f d)[key]? = (f d a)[key]? := by
  induction l generalizing d with
  | nil => cases ha
  | cons b l ih =>
    have hlocal' := fun c hc => hlocal c (List.mem_cons_of_mem b hc)
    obtain ⟨hfirst, hrest⟩ := List.pairwise_cons.mp hunshared
    rw [List.foldl_cons]
    rcases List.mem_cons.mp ha with rfl | ha
    · exact foldl_outside hlocal' _ fun c hc => hfirst c hc key hkey
    · rw [ih hlocal' hrest _ ha]
      apply (hlocal' a ha).inside _ _ _ key hkey
      intro key' hkey'
      exact (hlocal b List.mem_cons_self).outside d key' fun hb => hfirst a ha key' hb hkey'

end Run

/-- Places next to each other share nothing. -/
theorem unshared_siblings {α : Type} {name : α → Str} {l : List α} (parent : Loc)
    (h : (l.map name).Nodup) : Unshared (fun a => name a :: parent) l := by
  apply (List.pairwise_map.mp h).imp
  intro a b hne key hkey hkey'
  apply hne
  rcases List.suffix_or_suffix_of_suffix hkey hkey' with hsuffix | hsuffix
  · have heq := hsuffix.eq_of_length (by simp)
    exact (List.cons.inj heq).1
  · have heq := hsuffix.eq_of_length (by simp)
    exact (List.cons.inj heq).1.symm

end Disk
end Bpm
