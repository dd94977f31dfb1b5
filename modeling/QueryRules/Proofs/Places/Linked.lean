import Mathlib.Logic.Relation
import QueryRules.Proofs.Match.Notify
import QueryRules.Proofs.Places.Network
import QueryRules.Proofs.Ruleset.Indexed

/-!
# The links of a wiring

Gates that are there already are taken as they are, so outputs, monotony and the numbers of new
literals are settled once, when a gate is added.

- `Circuit.WellFormed.monotone_iff_not_reachesNot`: a gate is monotone if it reaches no not. By
  induction along the inputs, which come to an end (`Circuit.WellFormed.wellFounded_hasInput`).
- `Circuit.HasLiterals.withRule`: the literals of the register are those that have a gate.
- `Wiring.Linked`: how the gates, the literals and the conditions of a wiring belong together.
  `Wiring.linked_withRules`: so they do after any conditions have been added.
-/

namespace QueryRules

namespace Circuit

variable {c : Circuit} {r : Register}

/-! ## What a gate reaches -/

/-- A gate has another one among its inputs. -/
def HasInput (c : Circuit) (g i : Nat) : Prop := ∃ gate, c.gates[g]? = some gate ∧ i ∈ gate.inputs

/-- Some gate below a gate, or that gate itself, is a not. -/
def ReachesNot (c : Circuit) (g : Nat) : Prop :=
  ∃ i gate, Relation.ReflTransGen c.HasInput g i ∧ c.gates[i]? = some gate ∧ gate.kind = .not

/-- Going from gates to their inputs comes to an end. -/
theorem WellFormed.wellFounded_hasInput (hc : c.WellFormed) :
    WellFounded fun i g => c.HasInput g i :=
  Subrelation.wf (fun ⟨gate, hg, hi⟩ => hc.input_lt _ gate hg _ hi) Nat.lt_wfRel.wf

theorem reachesNot_iff {g : Nat} {gate : Gate} (hg : c.gates[g]? = some gate) :
    c.ReachesNot g ↔ gate.kind = .not ∨ ∃ i ∈ gate.inputs, c.ReachesNot i := by
  constructor
  · rintro ⟨i, target, hreach, htarget, hnot⟩
    rcases hreach.cases_head with rfl | ⟨j, ⟨gate', hg', hj⟩, hreach⟩
    · rw [hg] at htarget
      exact .inl (Option.some.inj htarget ▸ hnot)
    · rw [hg] at hg'
      exact .inr ⟨j, Option.some.inj hg' ▸ hj, i, target, hreach, htarget, hnot⟩
  · rintro (hnot | ⟨j, hj, i, target, hreach, htarget, hnot⟩)
    · exact ⟨g, gate, .refl, hg, hnot⟩
    · exact ⟨i, target, .head ⟨gate, hg, hj⟩ hreach, htarget, hnot⟩

/-- A gate is monotone if it reaches no not. -/
theorem WellFormed.monotone_iff_not_reachesNot (hc : c.WellFormed) {g : Nat} {gate : Gate}
    (hg : c.gates[g]? = some gate) : gate.monotone ↔ ¬ c.ReachesNot g := by
  induction g using hc.wellFounded_hasInput.induction generalizing gate with
  | _ g ih =>
    rw [hc.monotone_iff g gate hg, reachesNot_iff hg, not_or]
    refine and_congr_right fun _ => ?_
    simp only [not_exists, not_and]
    refine forall₂_congr fun i hi => ?_
    have hlt := Nat.lt_trans (hc.input_lt g gate hg i hi) (List.getElem?_eq_some_iff.1 hg).1
    have hinput := List.getElem?_eq_getElem hlt
    rw [isMonotone_eq hinput]
    exact ih i ⟨gate, hg, hi⟩ hinput

/-! ## The gates of literals -/

/-- The literals of a register are those that have a gate. -/
def HasLiterals (c : Circuit) (r : Register) : Prop :=
  ∀ id, (∃ g, c.shape? g = some (.literal id, [])) ↔ id < r.size

theorem hasLiterals_empty : HasLiterals {} {} := by simp [HasLiterals, shape?, Register.size]

/-- The gate of an operator is no gate of a literal. -/
theorem HasLiterals.addGate (h : c.HasLiterals r) {kind : GateKind}
    (hkind : ∀ id, kind ≠ .literal id) (inputs : List Nat) :
    (c.addGate kind inputs).1.HasLiterals r := by
  intro id
  rw [exists_shape?_addGate_iff, h id, or_iff_left]
  exact fun he => hkind id (Prod.mk.inj he).1.symm

/-- A literal that the register did not have gets the next number and a gate. -/
theorem HasLiterals.addLiteral (h : c.HasLiterals r) (l : Literal) :
    (c.addGate (.literal (r.insert l).2) []).1.HasLiterals (r.insert l).1 := by
  intro id
  have hshape : (GateKind.literal id, ([] : List Nat)) =
      (.literal (r.insert l).2, ascending []) ↔ id = (r.insert l).2 := by
    simp [ascending]
  rw [exists_shape?_addGate_iff, h id, hshape]
  cases hid : r.id? l with
  | some id' =>
    have hlt := (List.getElem?_eq_some_iff.1 (Register.id?_eq_some_iff.1 hid)).1
    rw [Register.insert_of_some hid, or_iff_left_iff_imp]
    rintro rfl
    exact hlt
  | none =>
    obtain ⟨hliterals, hlast⟩ := Register.insert_of_none hid
    rw [hlast, Register.size, Register.size, hliterals, List.length_append, List.length_singleton]
    omega

theorem HasLiterals.addConditions {fs : List Condition}
    (ih : ∀ f ∈ fs, ∀ {c : Circuit} {r : Register}, c.HasLiterals r →
      (c.addCondition r f).1.HasLiterals (c.addCondition r f).2.1)
    (h : c.HasLiterals r) : (c.addConditions r fs).1.HasLiterals (c.addConditions r fs).2.1 := by
  induction fs generalizing c r with
  | nil => exact h
  | cons f fs ihs =>
    rw [Circuit.addConditions]
    exact ihs (fun f hf => ih f (List.mem_cons_of_mem _ hf)) (ih f List.mem_cons_self h)

/-- Adding a condition gives every literal of it a gate, and adds no others. -/
theorem HasLiterals.addCondition (h : c.HasLiterals r) (f : Condition) :
    (c.addCondition r f).1.HasLiterals (c.addCondition r f).2.1 := by
  induction f using Formula.induct generalizing c r with
  | literal l => exact h.addLiteral l
  | all fs ih => exact (addConditions (fun f hf _ _ h => ih f hf h) h).addGate (by simp) _
  | any fs ih => exact (addConditions (fun f hf _ _ h => ih f hf h) h).addGate (by simp) _
  | not f ih => exact (ih h).addGate (by simp) _

theorem HasLiterals.withRule (h : c.HasLiterals r) (rule : Nat) (f : Condition) :
    (c.withRule r rule f).1.HasLiterals (c.withRule r rule f).2 := by
  intro id
  rw [withRule_eq]
  simp only [shape?_listRule]
  exact h.addCondition f id

theorem WellFormed.shape?_literal_iff (hc : c.WellFormed) {id g : Nat} :
    c.shape? g = some (.literal id, []) ↔
      ∃ gate, c.gates[g]? = some gate ∧ gate.kind = .literal id := by
  constructor
  · intro hs
    obtain ⟨gate, hg, hk, -⟩ := shape?_eq_some.1 hs
    exact ⟨gate, hg, hk⟩
  · rintro ⟨gate, hg, hk⟩
    have hs : c.shape? g = some (.literal id, gate.inputs) := shape?_eq_some.2 ⟨gate, hg, hk, rfl⟩
    rwa [hc.literal_inputs g id _ hs] at hs

/-- The gate that is found for a literal is the only one that it has. -/
theorem WellFormed.literalGate?_eq_some_iff (hc : c.WellFormed) {id g : Nat} :
    c.literalGate? id = some g ↔ c.shape? g = some (.literal id, []) := by
  refine ⟨Run.literalGate?_eq_some hc, fun hs => ?_⟩
  cases hfind : c.literalGate? id with
  | none => exact absurd hs (Run.shape?_of_literalGate?_eq_none hfind)
  | some g' =>
    have hs' := Run.literalGate?_eq_some hc hfind
    rw [hc.shape_inj g g' (hs.trans hs'.symm) (by rw [hs]; rfl)]

end Circuit

namespace Places.Wiring

variable {ε : Type}

/-! ## The wiring of several rules -/

/-- The wiring before any condition is added. -/
def empty : Wiring := ⟨{}, .empty, []⟩

/-- The wiring with the conditions of some rules, each with the place of its rule. -/
def withRules (w : Wiring) (rules : List (Condition × Nat)) : Checked ε Wiring :=
  rules.foldlM (fun w (f, rule) => w.withRule rule f) w

/-- How the gates, the literals and the conditions of a wiring belong together. -/
structure Linked (w : Wiring) : Prop where
  wellFormed : w.network.circuit.WellFormed
  /-- A gate stands under its kind and inputs. -/
  lookup_iff : ∀ key g, w.network.keys.lookup key = some g ↔
    w.network.circuit.shape? g = some key
  nodup_literals : w.register.literals.Nodup
  /-- The number of a literal stands under the literal. -/
  lookup_ids : ∀ l id, w.register.ids.lookup l = some id ↔ w.register.literal? id = some l
  id?_iff : ∀ l id, w.register.id? l = some id ↔ w.register.literal? id = some l
  /-- The number of each literal has been reported once, as that of a new literal. -/
  fresh : w.fresh = List.range w.register.size
  /-- The place of the gate of a literal stands under the number of the literal. -/
  lookup_literalGates : ∀ id g, w.network.literalGates.lookup id = some g ↔
    w.network.circuit.literalGate? id = some g
  /-- The literals with a gate are those of the register. -/
  literalGate? : ∀ id, (∃ g, w.network.circuit.literalGate? id = some g) ↔ id < w.register.size
  /-- No literal has two gates. -/
  literalGate?_iff : ∀ id g, w.network.circuit.literalGate? id = some g ↔
    ∃ gate, w.network.circuit.gates[g]? = some gate ∧ gate.kind = .literal id
  /-- Going from gates to their inputs comes to an end. -/
  wellFounded : WellFounded fun i g => w.network.circuit.HasInput g i
  /-- The monotone gates are those with no not at or below them. -/
  monotone_iff : ∀ (g : Nat) (gate : Gate), w.network.circuit.gates[g]? = some gate →
    (gate.monotone ↔ ¬ w.network.circuit.ReachesNot g)

/-- The wiring of a circuit, a register and the conditions that have been added to them. -/
structure Holds (w : Wiring) (c : Circuit) (r : Register) (added : List (Condition × Nat)) :
    Prop where
  follows : w.Follows 0 c r
  hasLiterals : c.HasLiterals r
  listsAll : c.ListsAll r added

variable {w : Wiring} {c : Circuit} {r : Register} {added : List (Condition × Nat)}

theorem holds_empty : empty.Holds {} {} [] where
  follows := ⟨Network.sound_empty, rfl, rfl, rfl⟩
  hasLiterals := Circuit.hasLiterals_empty
  listsAll := .nil

/-- One more condition is added without a look outside. -/
theorem Holds.succeeds_withRule (h : w.Holds c r added) (rule : Nat) (f : Condition) :
    Succeeds (w.withRule rule f : Checked ε _) fun w' =>
      w'.Holds (c.withRule r rule f).1 (c.withRule r rule f).2 (added ++ [(f, rule)]) :=
  (h.follows.succeeds_withRule rule f).imp fun _ hw' =>
    ⟨hw', h.hasLiterals.withRule rule f, h.listsAll.withRule h.follows.wellFormed rule f⟩

/-- So are any number of them. -/
theorem Holds.succeeds_withRules (h : w.Holds c r added) (rules : List (Condition × Nat)) :
    Succeeds (w.withRules rules : Checked ε _) fun w' => ∃ c' r',
      (c', r') = rules.foldl (fun s p => s.1.withRule s.2 p.2 p.1) (c, r) ∧
        w'.Holds c' r' (added ++ rules) := by
  induction rules generalizing w c r added with
  | nil => exact ⟨w, rfl, c, r, rfl, by rwa [List.append_nil]⟩
  | cons p rules ih =>
    rw [withRules, List.foldlM_cons]
    refine (h.succeeds_withRule p.2 p.1).bind fun w' hw' => (ih hw').imp fun w'' hw'' => ?_
    rwa [List.append_assoc] at hw''

theorem Holds.linked (h : w.Holds c r added) : w.Linked := by
  obtain ⟨⟨hsound, rfl, rfl, hfresh⟩, hliterals, -⟩ := h
  have hc := hsound.wellFormed
  constructor
  case wellFormed => exact hc
  case lookup_iff => exact hsound.lookup_iff
  case nodup_literals => exact w.register.nodup
  case lookup_ids =>
    intro l id
    rw [w.register.lookup_ids, Register.id?_eq_some_iff]
  case id?_iff => exact fun l id => Register.id?_eq_some_iff
  case fresh => exact hfresh
  case lookup_literalGates =>
    exact fun id g =>
      (hsound.lookup_literalGates_iff id g).trans hc.literalGate?_eq_some_iff.symm
  case literalGate? =>
    intro id
    simp only [hc.literalGate?_eq_some_iff]
    exact hliterals id
  case literalGate?_iff =>
    exact fun id g => hc.literalGate?_eq_some_iff.trans hc.shape?_literal_iff
  case wellFounded => exact hc.wellFounded_hasInput
  case monotone_iff => exact fun g gate hg => hc.monotone_iff_not_reachesNot hg

/-- The conditions of any rules are added without a look outside, and then gates, literals and
conditions belong together: the circuit and the register are those that the conditions give, each
condition is listed at the gate that is built like it, and all links are right. -/
theorem linked_withRules (rules : List (Condition × Nat)) :
    Succeeds (empty.withRules rules : Checked ε Wiring) fun w =>
      (w.network.circuit, w.register.toRegister) =
          rules.foldl (fun s p => s.1.withRule s.2 p.2 p.1) ({}, {}) ∧
        w.network.circuit.ListsAll w.register.toRegister rules ∧ w.Linked := by
  refine (holds_empty.succeeds_withRules rules).imp fun w hw => ?_
  obtain ⟨c, r, he, hw⟩ := hw
  have hlinked := hw.linked
  obtain ⟨⟨-, rfl, rfl, -⟩, -, hlists⟩ := hw
  exact ⟨he, hlists, hlinked⟩

/-- Conditions with equal operands share their gates, in any order and with any repetition. -/
example :
    let a : Condition := .literal { value := "a" }
    let b : Condition := .literal { value := "b" }
    (empty.withRules [(.all [a, b], 0), (.all [b, a], 1), (.all [a, a, b], 2)] :
        Checked Unit Wiring).map (fun w => w.network.circuit.gates.map (·.rules)) =
      .ok [[], [], [0, 1, 2]] := by
  decide +kernel

end Places.Wiring

end QueryRules
