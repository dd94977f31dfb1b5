import QueryRules.Match.Register
import QueryRules.Rule.Condition

/-!
# Circuits of conditions

The conditions of all rules share one circuit. Its gates are literals and operators; conditions with
equal parts share the gates of these parts.

- `Circuit.withRule` adds the condition of a rule. The inputs of a gate are numbered below the gate
  itself and stand in ascending order.
- A gate is monotone if no negation lies below it: once it holds it goes on to hold.
-/

namespace QueryRules

/-- What a gate computes from its inputs. -/
inductive GateKind where
  | literal (id : Nat)
  | all
  | any
  | not
  deriving DecidableEq, Repr

/-- A gate with the numbers of its inputs, of the gates that it feeds and of the conditions that end
in it. -/
structure Gate where
  kind : GateKind
  inputs : List Nat
  outputs : List Nat := []
  monotone : Bool
  rules : List Nat := []
  deriving DecidableEq, Repr

/-- The condition of a rule: the place of the rule in its rule set, the gate that the condition ends
in, and the literals outside every not. -/
structure CircuitRule where
  rule : Nat
  root : Nat
  positive : List Nat
  deriving DecidableEq, Repr

/-- Gates and conditions, numbered by their places. -/
structure Circuit where
  gates : List Gate := []
  rules : List CircuitRule := []
  deriving DecidableEq, Repr

/-- An ascending list of numbers with one more number. -/
def insertNumber (n : Nat) : List Nat → List Nat
  | [] => [n]
  | m :: ms => if n < m then n :: m :: ms else if n = m then m :: ms else m :: insertNumber n ms

/-- The numbers of a list in ascending order, each once. -/
def ascending (ns : List Nat) : List Nat := ns.foldr insertNumber []

namespace Circuit

/-- The gate with a number is monotone. -/
def isMonotone (c : Circuit) (g : Nat) : Bool := (c.gates[g]?.map Gate.monotone).getD true

/-- The number of the gate with a kind and inputs. -/
def findGate? (c : Circuit) (kind : GateKind) (inputs : List Nat) : Option Nat :=
  c.gates.findIdx? fun g => g.kind == kind && g.inputs == inputs

/-- The number of the gate of a literal. -/
def literalGate? (c : Circuit) (id : Nat) : Option Nat :=
  c.gates.findIdx? (·.kind == .literal id)

/-- The circuit with a gate, and the number of the gate. A gate that is there already is taken. -/
def addGate (c : Circuit) (kind : GateKind) (inputs : List Nat) : Circuit × Nat :=
  let inputs := ascending inputs
  match c.findGate? kind inputs with
  | some g => (c, g)
  | none =>
    let g := c.gates.length
    let gates := inputs.foldl
      (fun gates i => gates.modify i fun gate => { gate with outputs := gate.outputs ++ [g] })
      c.gates
    let monotone := kind != .not && inputs.all c.isMonotone
    ({ c with gates := gates ++ [{ kind, inputs, monotone }] }, g)

mutual

/-- The circuit and the register with the gates of a condition, and the number of the gate that it
ends in. -/
def addCondition (c : Circuit) (r : Register) : Condition → Circuit × Register × Nat
  | .literal l =>
    let (r, id) := r.insert l
    let (c, g) := c.addGate (.literal id) []
    (c, r, g)
  | .all fs =>
    let (c, r, gs) := addConditions c r fs
    let (c, g) := c.addGate .all gs
    (c, r, g)
  | .any fs =>
    let (c, r, gs) := addConditions c r fs
    let (c, g) := c.addGate .any gs
    (c, r, g)
  | .not f =>
    let (c, r, g) := addCondition c r f
    let (c, g) := c.addGate .not [g]
    (c, r, g)

/-- The same for several conditions. -/
def addConditions (c : Circuit) (r : Register) : List Condition → Circuit × Register × List Nat
  | [] => (c, r, [])
  | f :: fs =>
    let (c, r, g) := addCondition c r f
    let (c, r, gs) := addConditions c r fs
    (c, r, g :: gs)

end

/-- The circuit and the register with the condition of one more rule. -/
def withRule (c : Circuit) (r : Register) (rule : Nat) (condition : Condition) :
    Circuit × Register :=
  let (c, r, root) := c.addCondition r condition
  let positive := ascending (condition.positiveLiterals.filterMap r.id?)
  let index := c.rules.length
  let gates := c.gates.modify root fun g => { g with rules := g.rules ++ [index] }
  ({ gates, rules := c.rules ++ [{ rule, root, positive }] }, r)

end Circuit

end QueryRules
