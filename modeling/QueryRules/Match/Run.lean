import QueryRules.Match.Circuit

/-!
# Runs of a circuit

While a sequence of terms is scanned, the literals that are met are reported to a run of the
circuit.

- `Run.notify` reports a literal with the positions that it covers and passes on what follows from
  it through monotone gates.
- `Run.collect` hands out the conditions that have come to hold since it was last asked.
- `Run.finish` also decides the conditions with a negation, once every literal has been reported.
-/

namespace QueryRules

/-- Positions from `start` up to before `stop`. -/
structure Span where
  start : Nat
  stop : Nat
  deriving DecidableEq, Repr

/-- The smallest range that covers both. -/
def Span.hull (a b : Span) : Span := ⟨min a.start b.start, max a.stop b.stop⟩

/-- A rule whose condition holds, with the positions that it covers. -/
structure MetCondition where
  rule : Nat
  span : Span
  deriving DecidableEq, Repr

/-- What is known of the gates and conditions of a circuit. -/
structure Run where
  /-- The gates that are known to hold. -/
  satisfied : List Bool
  /-- For each conjunction the number of its inputs that have been passed on to it. -/
  counts : List Nat
  /-- What each literal that was met covers in all. -/
  spans : Nat → Option Span
  /-- The conditions that have come to hold. -/
  fired : List Bool
  /-- Those of them that have not been handed out. -/
  pending : List Nat

namespace Run

/-- The run of a circuit before any literal is reported. -/
def start (c : Circuit) : Run where
  satisfied := List.replicate c.gates.length false
  counts := List.replicate c.gates.length 0
  spans := fun _ => none
  fired := List.replicate c.rules.length false
  pending := []

/-- The gate is known to hold. -/
def holds (r : Run) (g : Nat) : Bool := r.satisfied[g]?.getD false

/-- The gate exists and is not known to hold. -/
def isOpen (r : Run) (g : Nat) : Bool := r.satisfied[g]? == some false

/-- The run in which a gate is known to hold. -/
def mark (r : Run) (g : Nat) : Run := { r with satisfied := r.satisfied.set g true }

/-- The run in which a condition has come to hold. -/
def fire (r : Run) (index : Nat) : Run :=
  if r.fired[index]? = some false then
    { r with fired := r.fired.set index true, pending := r.pending ++ [index] }
  else r

/-- What the gate `g` gains from one of its inputs. If it comes to hold it is put on the stack. -/
def visit (c : Circuit) (state : Run × List Nat) (g : Nat) : Run × List Nat :=
  let (r, stack) := state
  match c.gates[g]? with
  | none => state
  | some gate =>
    if !gate.monotone || !r.isOpen g then state
    else match gate.kind with
      | .all =>
        let n := r.counts[g]?.getD 0 + 1
        let r := { r with counts := r.counts.set g n }
        if n = gate.inputs.length then (r.mark g, g :: stack) else (r, stack)
      | .any => (r.mark g, g :: stack)
      | _ => state

/-- The number of gates that are not known to hold. -/
def openGates (r : Run) : Nat := r.satisfied.count false

@[simp] theorem openGates_fire (r : Run) (index : Nat) :
    (r.fire index).openGates = r.openGates := by
  unfold fire
  split <;> rfl

theorem openGates_mark {r : Run} {g : Nat} (h : r.isOpen g) :
    (r.mark g).openGates + 1 = r.openGates := by
  have h : r.satisfied[g]? = some false := by simpa [isOpen] using h
  obtain ⟨hg, hv⟩ := List.getElem?_eq_some_iff.1 h
  have hpos : 0 < r.satisfied.count false := List.count_pos_iff.2 (hv ▸ List.getElem_mem hg)
  simp only [openGates, mark, List.count_set hg, hv]
  simp
  omega

/-- The gates that are not known to hold and the waiting ones bound what is left to do. -/
def work (state : Run × List Nat) : Nat := 2 * state.1.openGates + state.2.length

theorem work_visit_le (c : Circuit) (state : Run × List Nat) (g : Nat) :
    work (visit c state g) ≤ work state := by
  obtain ⟨r, stack⟩ := state
  simp only [visit]
  split
  · exact Nat.le_refl _
  · split
    · exact Nat.le_refl _
    · rename_i gate _ hc
      have ho : r.isOpen g := by
        simp only [Bool.or_eq_true, Bool.not_eq_true', not_or, Bool.not_eq_false] at hc
        exact hc.2
      have hm := openGates_mark ho
      split
      · split
        · have : ({ r with counts := r.counts.set g (r.counts[g]?.getD 0 + 1) } : Run).isOpen g :=
            ho
          have := openGates_mark this
          simp only [work, List.length_cons] at *
          have e : ({ r with counts := r.counts.set g (r.counts[g]?.getD 0 + 1) } : Run).openGates
            = r.openGates := rfl
          omega
        · exact Nat.le_refl _
      · simp only [work, List.length_cons]
        omega
      · exact Nat.le_refl _

theorem work_foldl_visit_le (c : Circuit) (gs : List Nat) (state : Run × List Nat) :
    work (gs.foldl (visit c) state) ≤ work state := by
  induction gs generalizing state with
  | nil => exact Nat.le_refl _
  | cons g gs ih => exact Nat.le_trans (ih _) (work_visit_le c state g)

theorem openGates_foldl_fire (r : Run) (rules : List Nat) :
    (rules.foldl fire r).openGates = r.openGates := by
  induction rules generalizing r with
  | nil => rfl
  | cons i rules ih => simpa using ih (r.fire i)

/-- What follows at once from a gate that has come to hold: its conditions have come to hold, and
the gates that it feeds are visited. -/
def pass (c : Circuit) (r : Run) (gate : Gate) (stack : List Nat) : Run × List Nat :=
  gate.outputs.foldl (visit c) (gate.rules.foldl fire r, stack)

theorem work_pass_le (c : Circuit) (r : Run) (gate : Gate) (stack : List Nat) :
    work (pass c r gate stack) ≤ work (r, stack) := by
  have h := work_foldl_visit_le c gate.outputs (gate.rules.foldl fire r, stack)
  simpa only [pass, work, openGates_foldl_fire] using h

/-- The run in which everything has been passed on that follows from the gates on the stack; the
last gate put on the stack goes first. -/
def settle (c : Circuit) (r : Run) (stack : List Nat) : Run :=
  match stack with
  | [] => r
  | g :: stack =>
    match c.gates[g]? with
    | none => settle c r stack
    | some gate =>
      let state := pass c r gate stack
      settle c state.1 state.2
termination_by 2 * r.openGates + stack.length
decreasing_by
  · simp only [List.length_cons]; omega
  · have h := work_pass_le c r gate stack
    simp only [work] at h
    simp only [List.length_cons]
    omega

/-- The run in which a literal has been met at some positions. -/
def notify (c : Circuit) (r : Run) (literal : Nat) (span : Span) : Run :=
  let covered := (r.spans literal).elim span fun s => s.hull span
  let r := { r with spans := fun l => if l = literal then some covered else r.spans l }
  match c.literalGate? literal with
  | none => r
  | some g => if r.isOpen g then settle c (r.mark g) [g] else r

/-- The condition with the positions that it covers among `length` positions: those of its literals
outside every not, or all of them if none of these was met. -/
def metCondition (r : Run) (length : Nat) (rule : CircuitRule) : MetCondition :=
  let spans := rule.positive.filterMap r.spans
  { rule := rule.rule
    span := match spans with
      | [] => ⟨0, length⟩
      | s :: ss => ss.foldl Span.hull s }

/-- The conditions that have come to hold since the last call, in the order in which they did. -/
def collect (c : Circuit) (r : Run) (length : Nat) : Run × List MetCondition :=
  ({ r with pending := [] },
    r.pending.filterMap fun i => (c.rules[i]?).map (r.metCondition length))

/-- The value of every gate, once every literal has been reported. -/
def values (c : Circuit) (r : Run) : List Bool :=
  c.gates.foldl (fun vs gate =>
    let v :=
      if gate.monotone then r.holds vs.length
      else match gate.kind with
        | .literal _ => r.holds vs.length
        | .all => gate.inputs.all fun i => vs[i]?.getD false
        | .any => gate.inputs.any fun i => vs[i]?.getD false
        | .not => !gate.inputs.any fun i => vs[i]?.getD false
    vs ++ [v]) []

/-- The conditions that are left: those not handed out yet, then those that hold with a negation. -/
def finish (c : Circuit) (r : Run) (length : Nat) : List MetCondition :=
  let values := values c r
  let late := c.rules.zipIdx.filterMap fun (rule, i) =>
    if r.fired[i]? = some false ∧ ¬ c.isMonotone rule.root ∧ values[rule.root]? = some true then
      some (r.metCondition length rule)
    else none
  (collect c r length).2 ++ late

end Run

end QueryRules
