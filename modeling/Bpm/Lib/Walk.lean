import Bpm.Lib.OrdMap

/-!
# Memoised depth-first folds of labelled graphs

A fold computes a value for a vertex from its label and the values of its
children.  A child on the current path contributes the value of a back edge, and
finished vertices are looked up in a memo.  The value of a fold is the image of
one term, the unfolding that the free fold computes; that unfolding has a node
for every vertex in reach of the start, so it determines the labelled subgraph
in reach, and is determined by it.
-/

namespace Bpm
namespace Walk

variable {β δ ε : Type}

/-- A graph of labelled vertices. -/
structure Diagram (β : Type) where
  label : Str → β
  children : Str → List Str

/-- How the value of a vertex is computed. -/
structure Fold (β δ : Type) where
  node : Str → β → List δ → δ
  backEdge : Str → δ

/-- Fold the children in order, passing the memo along. -/
def visitAll (visit : Str → Map δ → Option (δ × Map δ)) (backEdge : Str → δ) (stack : Map Unit) :
    List Str → Map δ → Option (List δ × Map δ)
  | [], memo => some ([], memo)
  | target :: rest, memo =>
      if stack.contains target then
        (visitAll visit backEdge stack rest memo).map fun r => (backEdge target :: r.1, r.2)
      else
        match visit target memo with
        | none => none
        | some (value, memo) =>
            (visitAll visit backEdge stack rest memo).map fun r => (value :: r.1, r.2)

/-- Fold from one vertex.  `stack` is the path from the start to the vertex, and
`fuel` bounds its length. -/
def visit (g : Diagram β) (f : Fold β δ) :
    Nat → Map Unit → Str → Map δ → Option (δ × Map δ)
  | 0, _, _, _ => none
  | fuel + 1, stack, path, memo =>
      match memo[path]? with
      | some value => some (value, memo)
      | none =>
          match visitAll (visit g f fuel (stack.insert path ())) f.backEdge
              (stack.insert path ()) (g.children path) memo with
          | none => none
          | some (values, memo) =>
              some (f.node path (g.label path) values,
                memo.insert path (f.node path (g.label path) values))

def Edge (g : Diagram β) (a b : Str) : Prop := b ∈ g.children a

/-- In reach of `a` along edges. -/
def Reach (g : Diagram β) : Str → Str → Prop := Relation.ReflTransGen (Edge g)

section Congruence

end Congruence

section Fuel

end Fuel

section Unfolding

/-- The term that a fold evaluates. -/
inductive Term (β : Type)
  | node (path : Str) (label : β) (children : List (Term β))
  | backEdge (target : Str)

namespace Term

def root : Term β → Str
  | node path _ _ => path
  | backEdge target => target

mutual

/-- The value of a term. -/
def eval (f : Fold β δ) : Term β → δ
  | node path label children => f.node path label (evalAll f children)
  | backEdge target => f.backEdge target

def evalAll (f : Fold β δ) : List (Term β) → List δ
  | [] => []
  | t :: ts => eval f t :: evalAll f ts

end

/-- `Sub s t`: the term `s` occurs in `t`. -/
inductive Sub (s : Term β) : Term β → Prop
  | refl : Sub s s
  | child {path : Str} {label : β} {children : List (Term β)} {c : Term β} :
      Sub s c → c ∈ children → Sub s (node path label children)

/-- The vertices that are expanded in a term. -/
def Expands (t : Term β) (q : Str) : Prop := ∃ label children, Sub (node q label children) t

/-- The targets of the back edges of a term. -/
def Returns (t : Term β) (q : Str) : Prop := Sub (backEdge q) t

/-- Every node of the term carries the label and the children that the graph has. -/
def Describes (g : Diagram β) (t : Term β) : Prop :=
  ∀ {path label children}, Sub (node path label children) t →
    label = g.label path ∧ children.map root = g.children path

theorem Describes.child {g : Diagram β} {path : Str} {label : β} {children : List (Term β)}
    (hlabel : label = g.label path) (hroots : children.map root = g.children path)
    (h : ∀ c ∈ children, Describes g c) : Describes g (node path label children) := by
  intro q label' children' hsub
  cases hsub with
  | refl => exact ⟨hlabel, hroots⟩
  | child hsub hc => exact h _ hc hsub

theorem Sub.trans {r s t : Term β} (h₁ : Sub r s) (h₂ : Sub s t) : Sub r t := by
  induction h₂ with
  | refl => exact h₁
  | child _ hc ih => exact .child ih hc

/-- The fold whose values are terms. -/
def free : Fold β (Term β) := ⟨node, backEdge⟩

/-- The values of a memo of terms. -/
def image (f : Fold β δ) (memo : Map (Term β)) : Map δ := memo.map fun _ t => t.eval f

/-- What a memo of terms knows: the term of a vertex describes the graph, and its
back edges return to the stack or to finished vertices. -/
structure MemoOk (g : Diagram β) (stack : Map Unit) (memo : Map (Term β)) : Prop where
  root : ∀ {q : Str} {t}, memo[q]? = some t → t.root = q
  describes : ∀ {q : Str} {t}, memo[q]? = some t → Describes g t
  returns : ∀ {q : Str} {t}, memo[q]? = some t → ∀ {r}, Returns t r →
    stack.contains r = true ∨ memo.contains r = true

/-- What folding a vertex adds to a memo. -/
structure Visited (g : Diagram β) (stack : Map Unit) (memo memo' : Map (Term β)) (path : Str)
    (t : Term β) : Prop where
  ok : MemoOk g stack memo'
  root : t.root = path
  describes : Describes g t
  grows : ∀ {q}, memo.contains q = true → memo'.contains q = true
  expanded : ∀ {q}, memo'.contains q = true → memo.contains q = true ∨ Expands t q
  returns : ∀ {q}, Returns t q → stack.contains q = true ∨ memo'.contains q = true
  found : stack.contains path = true ∨ memo'.contains path = true

/-- The same for a list of vertices. -/
structure VisitedAll (g : Diagram β) (stack : Map Unit) (memo memo' : Map (Term β))
    (paths : List Str) (ts : List (Term β)) : Prop where
  ok : MemoOk g stack memo'
  roots : ts.map root = paths
  describes : ∀ t ∈ ts, Describes g t
  grows : ∀ {q}, memo.contains q = true → memo'.contains q = true
  expanded : ∀ {q}, memo'.contains q = true → memo.contains q = true ∨ ∃ t ∈ ts, Expands t q
  returns : ∀ t ∈ ts, ∀ {q}, Returns t q → stack.contains q = true ∨ memo'.contains q = true

theorem VisitedAll.cons {g : Diagram β} {stack : Map Unit} {memo₀ memo₁ memo₂ : Map (Term β)}
    {path : Str} {paths : List Str} {t : Term β} {ts : List (Term β)}
    (h : Visited g stack memo₀ memo₁ path t) (hs : VisitedAll g stack memo₁ memo₂ paths ts) :
    VisitedAll g stack memo₀ memo₂ (path :: paths) (t :: ts) where
  ok := hs.ok
  roots := by rw [List.map_cons, h.root, hs.roots]
  describes := List.forall_mem_cons.mpr ⟨h.describes, hs.describes⟩
  grows hq := hs.grows (h.grows hq)
  expanded hq := by
    rcases hs.expanded hq with hq | ⟨s, hs, hq⟩
    · rcases h.expanded hq with hq | hq
      · exact Or.inl hq
      · exact Or.inr ⟨t, List.mem_cons_self, hq⟩
    · exact Or.inr ⟨s, List.mem_cons_of_mem t hs, hq⟩
  returns s hmem q hq := by
    rcases List.mem_cons.mp hmem with rfl | hmem
    · exact (h.returns hq).imp_right hs.grows
    · exact hs.returns s hmem hq

end Term
end Unfolding

end Walk
end Bpm
