/-!
# Tries over words

- `Trie α` stores targets under texts, apart for texts that must be met exactly and for texts that
  only have to be the start of one; `Trie.targets` is the view: the targets under a text, in the
  order in which they were first stored (`targets_insert`).
- `Trie.lookup` finds every stored text among the joined words of consecutive positions, each with
  several alternatives.
-/

namespace QueryRules

/-- A trie. `exact` and `starts` are the targets stored under the text that leads to the node. -/
inductive Trie (α : Type) where
  | node (exact starts : List α) (edges : List (Char × Trie α))

namespace Trie

variable {α : Type}

/-- The trie that stores nothing. -/
def empty : Trie α := .node [] [] []

instance : Inhabited (Trie α) := ⟨empty⟩

/-- The targets that ask for exactly this text. -/
def exact : Trie α → List α
  | .node e _ _ => e

/-- The targets that ask for a longer text. -/
def starts : Trie α → List α
  | .node _ s _ => s

/-- The trie behind an edge. -/
def findEdge? : List (Char × Trie α) → Char → Option (Trie α)
  | [], _ => none
  | (d, t) :: edges, c => if c = d then some t else findEdge? edges c

/-- Edges with another trie behind one of them; a missing edge is added at the end. -/
def putEdge (c : Char) (t : Trie α) : List (Char × Trie α) → List (Char × Trie α)
  | [] => [(c, t)]
  | (d, u) :: edges => if c = d then (c, t) :: edges else (d, u) :: putEdge c t edges

/-- The trie one character further. -/
def child? : Trie α → Char → Option (Trie α)
  | .node _ _ edges, c => findEdge? edges c

/-- The trie with another trie one character further. -/
def setChild (t : Trie α) (c : Char) (u : Trie α) : Trie α :=
  match t with
  | .node e s edges => .node e s (putEdge c u edges)

/-- A list with one more element at the end, unless it has it already. -/
def addNew [DecidableEq α] (a : α) (l : List α) : List α := if a ∈ l then l else l ++ [a]

/-- The trie with one more target at its root. -/
def addTarget [DecidableEq α] (isPrefix : Bool) (a : α) : Trie α → Trie α
  | .node e s edges =>
    if isPrefix then .node e (addNew a s) edges else .node (addNew a e) s edges

/-- The trie with one more target under a text. -/
def insert [DecidableEq α] (isPrefix : Bool) (a : α) : List Char → Trie α → Trie α
  | [], t => t.addTarget isPrefix a
  | c :: cs, t => t.setChild c (insert isPrefix a cs ((t.child? c).getD empty))

/-- The trie under a text. -/
def descend? : Trie α → List Char → Option (Trie α)
  | t, [] => some t
  | t, c :: cs => (t.child? c).bind (descend? · cs)

/-- The targets stored under a text, for exact use or as the start of longer texts. -/
def targets (t : Trie α) (isPrefix : Bool) (key : List Char) : List α :=
  match t.descend? key with
  | none => []
  | some u => if isPrefix then u.starts else u.exact

/-! ## Look-up -/

/-- Targets found at consecutive positions. `choice` counts the alternative taken at each of them,
`suffix` is what follows the stored text if only its start was asked for. -/
structure Hit (α : Type) where
  targets : List α
  start : Nat
  choice : List Nat
  suffix : Option (List Char)
  deriving DecidableEq, Repr

/-- The position after the last one of a hit. -/
def Hit.stop (h : Hit α) : Nat := h.start + h.choice.length

/-- The stored texts that a word strictly goes beyond, with the rest of the word, and the trie under
the whole word. -/
def spell : Trie α → List Char → List (List α × List Char) × Option (Trie α)
  | t, [] => ([], some t)
  | t, c :: cs =>
    match t.child? c with
    | none => ([], none)
    | some u =>
      let (found, last) := u.spell cs
      (if cs = [] ∨ u.starts.isEmpty then found else (u.starts, cs) :: found, last)

/-- The hits at the given positions, after some alternatives have been taken before them. A space
stands between the words of two positions; an empty alternative is never taken. -/
def hitsFrom (start : Nat) (t : Trie α) (choice : List Nat) :
    List (List (List Char)) → List (Hit α)
  | [] => []
  | alternatives :: positions =>
    match if choice = [] then some t else t.child? ' ' with
    | none => []
    | some t => alternatives.zipIdx.flatMap fun (word, i) =>
      if word = [] then []
      else
        let choice := choice ++ [i]
        let (found, last) := t.spell word
        let byPrefix := found.map fun (targets, rest) =>
          { targets, start, choice, suffix := some rest }
        match last with
        | none => byPrefix
        | some u =>
          let whole : List (Hit α) :=
            if u.exact.isEmpty then [] else [{ targets := u.exact, start, choice, suffix := none }]
          byPrefix ++ whole ++ hitsFrom start u choice positions

/-- The hits that begin at a position, depth first over the alternatives. -/
def lookup (t : Trie α) (positions : List (List (List Char))) (start : Nat) : List (Hit α) :=
  t.hitsFrom start [] (positions.drop start)

/-! ## The view of a trie by its texts -/

theorem findEdge?_putEdge {c d : Char} {t : Trie α} {edges : List (Char × Trie α)} :
    findEdge? (putEdge c t edges) d = if d = c then some t else findEdge? edges d := by
  induction edges with
  | nil => simp [putEdge, findEdge?]
  | cons e edges ih =>
    obtain ⟨x, u⟩ := e
    by_cases h : c = x
    · subst h
      simp only [putEdge, if_true, findEdge?]
      split <;> simp_all
    · simp only [putEdge, h, if_false, findEdge?, ih]
      by_cases hd : d = x
      · subst hd
        simp [Ne.symm h]
      · simp [hd]

@[simp] theorem child?_setChild {c d : Char} {t u : Trie α} :
    (t.setChild c u).child? d = if d = c then some u else t.child? d := by
  cases t with
  | node e s edges => simp [setChild, child?, findEdge?_putEdge]

@[simp] theorem targets_nil {t : Trie α} {isPrefix : Bool} :
    t.targets isPrefix [] = if isPrefix then t.starts else t.exact := rfl

theorem targets_cons {t : Trie α} {isPrefix : Bool} {c : Char} {cs : List Char} :
    t.targets isPrefix (c :: cs) = ((t.child? c).getD empty).targets isPrefix cs := by
  cases h : t.child? c with
  | none =>
    have he : (empty : Trie α).targets isPrefix cs = [] := by
      cases cs with
      | nil => cases isPrefix <;> rfl
      | cons k ks => rfl
    simp only [Option.getD_none, he]
    simp [targets, descend?, h]
  | some u => simp [targets, descend?, h]

@[simp] theorem targets_setChild_nil {t u : Trie α} {c : Char} {isPrefix : Bool} :
    (t.setChild c u).targets isPrefix [] = t.targets isPrefix [] := by
  cases t
  rfl

/-- A new target comes last under its text, unless it stands there already, and nothing changes
under other texts. -/
theorem targets_insert [DecidableEq α] {t : Trie α} {b b' : Bool} {a : α} {key key' : List Char} :
    (t.insert b a key).targets b' key' =
      if b' = b ∧ key' = key then addNew a (t.targets b' key') else t.targets b' key' := by
  induction key generalizing t key' with
  | nil =>
    cases t with
    | node e s edges =>
      cases key' with
      | nil => cases b <;> cases b' <;> simp [insert, addTarget, exact, starts]
      | cons c cs =>
        cases b <;> simp [insert, addTarget, targets_cons, child?]
  | cons c cs ih =>
    cases key' with
    | nil => simp only [insert, targets_setChild_nil]; simp
    | cons d ds =>
      simp only [insert, targets_cons, child?_setChild]
      by_cases h : d = c
      · subst h
        simp [ih]
      · simp [h]

end Trie

end QueryRules
