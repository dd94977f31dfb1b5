/-!
# Formulas

- `Formula α` combines literals of any kind with and, or and not; `Formula.and` and `Formula.or`
  build formulas step by step.
- `Formula.holds` is the meaning of a formula under a valuation of its literals. A conjunction of
  nothing does not hold.
- `Formula.hasPositive` asks for a literal outside every not (`hasPositive_iff`).
- `Formula.traverse` replaces every literal from left to right, up to the first that cannot be.
-/

namespace QueryRules

/-- A combination of literals with and, or and not. -/
inductive Formula (α : Type) where
  | literal (a : α)
  | all (fs : List (Formula α))
  | any (fs : List (Formula α))
  | not (f : Formula α)
  deriving Inhabited

namespace Formula

variable {α β ε : Type}

/-- Both formulas; a conjunction on the left takes the other one in. -/
def and (f g : Formula α) : Formula α :=
  match f with
  | .all fs => .all (fs ++ [g])
  | f => .all [f, g]

/-- One of the formulas; a disjunction on the left takes the other one in. -/
def or (f g : Formula α) : Formula α :=
  match f with
  | .any fs => .any (fs ++ [g])
  | f => .any [f, g]

mutual

/-- The formula holds under a valuation. A conjunction needs at least one operand. -/
def holds (v : α → Bool) : Formula α → Bool
  | .literal a => v a
  | .all [] => false
  | .all (f :: fs) => holds v f && everyHolds v fs
  | .any fs => someHolds v fs
  | .not f => !holds v f

/-- Every formula holds. -/
def everyHolds (v : α → Bool) : List (Formula α) → Bool
  | [] => true
  | f :: fs => holds v f && everyHolds v fs

/-- Some formula holds. -/
def someHolds (v : α → Bool) : List (Formula α) → Bool
  | [] => false
  | f :: fs => holds v f || someHolds v fs

end

mutual

/-- The literals of a formula from left to right. -/
def literals : Formula α → List α
  | .literal a => [a]
  | .all fs => literalsOf fs
  | .any fs => literalsOf fs
  | .not f => literals f

/-- The literals of several formulas. -/
def literalsOf : List (Formula α) → List α
  | [] => []
  | f :: fs => literals f ++ literalsOf fs

end

mutual

/-- The literals outside every not, from left to right. -/
def positiveLiterals : Formula α → List α
  | .literal a => [a]
  | .all fs => positiveLiteralsOf fs
  | .any fs => positiveLiteralsOf fs
  | .not _ => []

/-- The literals of several formulas that stand outside every not. -/
def positiveLiteralsOf : List (Formula α) → List α
  | [] => []
  | f :: fs => positiveLiterals f ++ positiveLiteralsOf fs

end

/-- Some literal stands outside every not. -/
def hasPositive (f : Formula α) : Bool := !f.positiveLiterals.isEmpty

mutual

/-- The formula has no not. -/
def isPositive : Formula α → Bool
  | .literal _ => true
  | .all fs => allPositive fs
  | .any fs => allPositive fs
  | .not _ => false

/-- None of the formulas has a not. -/
def allPositive : List (Formula α) → Bool
  | [] => true
  | f :: fs => isPositive f && allPositive fs

end

mutual

/-- The formula with every literal replaced, unless some literal cannot be. -/
def traverse (g : α → Except ε β) : Formula α → Except ε (Formula β)
  | .literal a => (g a).map .literal
  | .all fs => (traverseList g fs).map .all
  | .any fs => (traverseList g fs).map .any
  | .not f => (traverse g f).map .not

/-- Formulas with every literal replaced. -/
def traverseList (g : α → Except ε β) : List (Formula α) → Except ε (List (Formula β))
  | [] => .ok []
  | f :: fs => do
    let h ← traverse g f
    let hs ← traverseList g fs
    return h :: hs

end

mutual

/-- The formula with every literal replaced. -/
def map (g : α → β) : Formula α → Formula β
  | .literal a => .literal (g a)
  | .all fs => .all (mapList g fs)
  | .any fs => .any (mapList g fs)
  | .not f => .not (map g f)

/-- Formulas with every literal replaced. -/
def mapList (g : α → β) : List (Formula α) → List (Formula β)
  | [] => []
  | f :: fs => map g f :: mapList g fs

end

mutual

/-- The text of a formula, with parentheses around every operator. -/
def text (leaf : α → String) : Formula α → String
  | .literal a => leaf a
  | .all fs => "(" ++ " AND ".intercalate (texts leaf fs) ++ ")"
  | .any fs => "(" ++ " OR ".intercalate (texts leaf fs) ++ ")"
  | .not f => "(NOT " ++ text leaf f ++ ")"

/-- The texts of several formulas. -/
def texts (leaf : α → String) : List (Formula α) → List String
  | [] => []
  | f :: fs => text leaf f :: texts leaf fs

end

theorem mem_positiveLiteralsOf {a : α} {fs : List (Formula α)} :
    a ∈ positiveLiteralsOf fs ↔ ∃ f ∈ fs, a ∈ f.positiveLiterals := by
  induction fs with
  | nil => simp [positiveLiteralsOf]
  | cons f fs ih => simp [positiveLiteralsOf, ih]

theorem hasPositive_iff {f : Formula α} : f.hasPositive ↔ ∃ a, a ∈ f.positiveLiterals := by
  cases h : f.positiveLiterals with
  | nil => simp [hasPositive, h]
  | cons a as => simp only [hasPositive, h]; exact ⟨fun _ => ⟨a, by simp⟩, fun _ => rfl⟩

end Formula

end QueryRules
