import Bpm.Lib.Text

/-!
# Texts as lists of lines

A text is cut behind each of its line feeds.  The pieces make the text up again, and they
are the only way to write it as a list of lines: all lines but the last end with a line
feed, and no line has one elsewhere.  A reader of lines drops the line feed, and a carriage
return that stands before it.
-/

namespace Bpm
namespace Lines

/-- The lines of a text, each with the line feed that ends it. -/
def pieces : Str → List Str
  | [] => []
  | c :: cs =>
      if c = '\n' then [c] :: pieces cs
      else
        match pieces cs with
        | [] => [[c]]
        | line :: rest => (c :: line) :: rest

/-- A line with its line feed, which is the only one in it. -/
def Terminated (line : Str) : Prop := ∃ body, '\n' ∉ body ∧ line = body ++ ['\n']

/-- Lists of lines: only the last one may lack its line feed. -/
inductive IsLines : List Str → Prop
  | nil : IsLines []
  | last {body : Str} (hne : body ≠ []) (hbody : '\n' ∉ body) : IsLines [body]
  | cons {line : Str} {rest : List Str} (hline : Terminated line) (hrest : IsLines rest) :
      IsLines (line :: rest)

theorem pieces_body {body : Str} (hne : body ≠ []) (hbody : '\n' ∉ body) :
    pieces body = [body] := by
  induction body with
  | nil => exact absurd rfl hne
  | cons c body ih =>
      have hc : c ≠ '\n' := fun heq => hbody (by simp [heq])
      cases body with
      | nil => simp [pieces, hc]
      | cons d body =>
          have hrest : pieces (d :: body) = [d :: body] :=
            ih (by simp) (fun hin => hbody (List.mem_cons_of_mem _ hin))
          rw [pieces, if_neg hc, hrest]

/-- A line with its line feed is cut off as it stands. -/
theorem pieces_terminated {line : Str} (h : Terminated line) (s : Str) :
    pieces (line ++ s) = line :: pieces s := by
  obtain ⟨body, hbody, rfl⟩ := h
  induction body with
  | nil => simp [pieces]
  | cons c body ih =>
      have hc : c ≠ '\n' := fun heq => hbody (by simp [heq])
      have hrest := ih (fun hin => hbody (List.mem_cons_of_mem _ hin))
      rw [List.cons_append, List.cons_append, pieces, if_neg hc, hrest]

theorem pieces_flatten {lines : List Str} (h : IsLines lines) : pieces lines.flatten = lines := by
  induction h with
  | nil => rfl
  | last hne hbody => simpa using pieces_body hne hbody
  | cons hline hrest ih => rw [List.flatten_cons, pieces_terminated hline, ih]

/-- Lists of lines with the same text are the same list. -/
theorem IsLines.flatten_inj {l l' : List Str} (h : IsLines l) (h' : IsLines l')
    (heq : l.flatten = l'.flatten) : l = l' := by
  rw [← pieces_flatten h, heq, pieces_flatten h']

theorem flatten_pieces (s : Str) : (pieces s).flatten = s := by
  induction s with
  | nil => rfl
  | cons c s ih =>
      unfold pieces
      split
      · simp [ih]
      · split
        · rename_i hnil
          have hs : s = [] := by simpa [hnil] using ih.symm
          simp [hs]
        · rename_i line rest hcons
          rw [← ih, hcons]
          simp

theorem isLines_pieces (s : Str) : IsLines (pieces s) := by
  induction s with
  | nil => exact .nil
  | cons c s ih =>
      unfold pieces
      split
      · rename_i hc
        exact .cons ⟨[], by simp, by simp [hc]⟩ ih
      · rename_i hc
        split
        · exact .last (by simp) (by simpa using fun heq => hc heq.symm)
        · rename_i line rest hcons
          rw [hcons] at ih
          cases ih with
          | last hne hbody =>
              exact .last (by simp) (by simp [hbody, Ne.symm hc])
          | cons hline hrest =>
              obtain ⟨body, hbody, rfl⟩ := hline
              exact .cons ⟨c :: body, by simp [hbody, Ne.symm hc], rfl⟩ hrest

/-- Lines with their line feeds before other lines. -/
theorem IsLines.append {l l' : List Str} (h : ∀ line ∈ l, Terminated line) (h' : IsLines l') :
    IsLines (l ++ l') := by
  induction l with
  | nil => exact h'
  | cons line l ih =>
      have hrest := ih fun x hx => h x (List.mem_cons_of_mem _ hx)
      exact .cons (h line (by simp)) hrest

theorem IsLines.tail {line : Str} {rest : List Str} (h : IsLines (line :: rest)) :
    IsLines rest := by
  cases h with
  | last hne hbody => exact .nil
  | cons hline hrest => exact hrest

theorem IsLines.head {line next : Str} {rest : List Str} (h : IsLines (line :: next :: rest)) :
    Terminated line := by
  cases h with
  | cons hline hrest => exact hline

theorem IsLines.of_append {l l' : List Str} (h : IsLines (l ++ l')) : IsLines l' := by
  induction l with
  | nil => exact h
  | cons line l ih => exact ih h.tail

/-- What stands before another line has its line feed. -/
theorem IsLines.terminated {l l' : List Str} (h : IsLines (l ++ l')) (hne : l' ≠ [])
    {line : Str} (hline : line ∈ l) : Terminated line := by
  induction l with
  | nil => cases hline
  | cons first l ih =>
      rcases List.mem_cons.mp hline with rfl | hin
      · cases hrest : l ++ l' with
        | nil => exact absurd (List.append_eq_nil_iff.mp hrest).2 hne
        | cons next rest =>
            rw [List.cons_append, hrest] at h
            exact h.head
      · exact ih h.tail hin

/-! ## Reading lines -/

/-- Drop a carriage return at the end. -/
def stripReturn (line : Str) : Str :=
  if line.getLast? = some '\r' then line.dropLast else line

/-- Drop the line feed at the end, and the carriage return before it. -/
def chomp (line : Str) : Str :=
  if line.getLast? = some '\n' then stripReturn line.dropLast else line

/-- The lines of a text without what ends them. -/
def lines (text : Str) : List Str := (pieces text).map chomp

/-- Lines written one below the other. -/
def unlines (lines : List Str) : Str := (lines.map (· ++ ['\n'])).flatten

theorem chomp_append (body : Str) : chomp (body ++ ['\n']) = stripReturn body := by
  simp [chomp]

/-- Reading written lines gives them back, up to carriage returns at their ends. -/
theorem lines_unlines {l : List Str} (h : ∀ line ∈ l, '\n' ∉ line) :
    lines (unlines l) = l.map stripReturn := by
  have hlines : IsLines (l.map (· ++ ['\n'])) := by
    have hall : ∀ line ∈ l.map (· ++ ['\n']), Terminated line := by
      intro line hline
      obtain ⟨body, hin, rfl⟩ := List.mem_map.mp hline
      exact ⟨body, h body hin, rfl⟩
    simpa using IsLines.append hall .nil
  rw [lines, unlines, pieces_flatten hlines, List.map_map]
  exact List.map_congr_left fun line _ => chomp_append line

end Lines
end Bpm
