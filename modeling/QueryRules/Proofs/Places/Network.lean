import QueryRules.Proofs.Match.Meaning
import QueryRules.Proofs.Places.Checked

/-!
# Circuits by places

The gates of a circuit name one another by their places, and the place of a gate is looked up under
its kind and inputs, that of the gate of a literal also under the number of the literal. The number
of a literal is looked up under the literal.

- `Network.Sound`: the places that are stored are those that a search finds.
  `LiteralTable` carries the same for the numbers of the literals.
- `Network.Sound.succeeds_addGate`: a gate over gates of the circuit looks at no place outside it.
- `Wiring.Follows.succeeds_addCondition`: neither do the gates of a condition, since those of its
  operands have been added before.
- `Wiring.Follows.succeeds_withRule`: nor does listing a rule; the literals that are new to the
  register are those that have been given the next numbers.
-/

namespace QueryRules.Places

variable {ε : Type}

/-! ## Gates -/

/-- A circuit with the place of each gate under the kind and the inputs of the gate, and with the
place of the gate of each literal under the number of the literal. -/
structure Network where
  circuit : Circuit := {}
  keys : List ((GateKind × List Nat) × Nat) := []
  literalGates : List (Nat × Nat) := []

namespace Network

/-- All of some gates are monotone, up to the first that is not. -/
def allMonotone (gates : List Gate) : List Nat → Checked ε Bool
  | [] => .ok true
  | i :: is => do
    let gate ← Checked.get gates i
    if gate.monotone then allMonotone gates is else .ok false

/-- A gate of a kind over some gates is monotone. -/
def monotone (gates : List Gate) (kind : GateKind) (inputs : List Nat) : Checked ε Bool :=
  if kind = .not then .ok false else allMonotone gates inputs

/-- The gates with one more output at each of some places. -/
def addOutput (g : Nat) (inputs : List Nat) (gates : List Gate) : Checked ε (List Gate) :=
  inputs.foldlM (fun gates i =>
    Checked.modify gates i fun gate => { gate with outputs := gate.outputs ++ [g] }) gates

/-- The places of the gates of literals with that of a new gate, if it is one of a literal. -/
def storeGate (kind : GateKind) (g : Nat) (literalGates : List (Nat × Nat)) : List (Nat × Nat) :=
  match kind with
  | .literal id => (id, g) :: literalGates
  | _ => literalGates

/-- The network with a gate, and the place of the gate. A gate that is there already is taken. -/
def addGate (n : Network) (kind : GateKind) (inputs : List Nat) : Checked ε (Network × Nat) :=
  let inputs := ascending inputs
  match n.keys.lookup (kind, inputs) with
  | some g => .ok (n, g)
  | none => do
    let monotone ← monotone n.circuit.gates kind inputs
    let g := n.circuit.gates.length
    let gates ← addOutput g inputs n.circuit.gates
    return (⟨{ n.circuit with gates := gates ++ [{ kind, inputs, monotone }] },
      n.keys ++ [((kind, inputs), g)], storeGate kind g n.literalGates⟩, g)

/-- The network with a condition listed at the gate that it ends in. -/
def listRule (n : Network) (rule : CircuitRule) : Checked ε Network := do
  let c := n.circuit
  let gates ← Checked.modify c.gates rule.root fun gate =>
    { gate with rules := gate.rules ++ [c.rules.length] }
  return { n with circuit := { gates, rules := c.rules ++ [rule] } }

/-- The circuit is well-formed, and its gates stand under their keys. -/
structure Sound (n : Network) : Prop where
  wellFormed : n.circuit.WellFormed
  lookup_iff : ∀ key g, n.keys.lookup key = some g ↔ n.circuit.shape? g = some key
  lookup_literalGates_iff : ∀ id g, n.literalGates.lookup id = some g ↔
    n.circuit.shape? g = some (.literal id, [])

theorem sound_empty : Sound {} :=
  ⟨Circuit.wellFormed_empty, by simp [Circuit.shape?], by simp [Circuit.shape?]⟩

variable {n : Network}

/-- The key of a gate leads to the gate that is found by a search. -/
theorem Sound.lookup_eq (h : n.Sound) (kind : GateKind) (inputs : List Nat) :
    n.keys.lookup (kind, inputs) = n.circuit.findGate? kind inputs := by
  refine Option.ext fun g => ?_
  rw [h.lookup_iff]
  refine ⟨fun hg => ?_, Circuit.findGate?_eq_some⟩
  cases hfind : n.circuit.findGate? kind inputs with
  | none => exact absurd hg (Circuit.shape?_ne_of_findGate? hfind g)
  | some g' =>
    -- no gate stands there twice
    have hg' := Circuit.findGate?_eq_some hfind
    rw [h.wellFormed.shape_inj g g' (hg.trans hg'.symm) (by rw [hg]; rfl)]

theorem allMonotone_eq {c : Circuit} {inputs : List Nat} (h : ∀ i ∈ inputs, i < c.gates.length) :
    allMonotone c.gates inputs = (.ok (inputs.all c.isMonotone) : Checked ε _) := by
  induction inputs with
  | nil => rfl
  | cons i is ih =>
    obtain ⟨hi, his⟩ := List.forall_mem_cons.1 h
    obtain ⟨gate, hgate⟩ : ∃ gate, c.gates[i]? = some gate := ⟨_, List.getElem?_eq_getElem hi⟩
    rw [allMonotone, Checked.get_eq_ok hgate, List.all_cons, Circuit.isMonotone_eq hgate]
    change (if gate.monotone then _ else _) = _
    split
    · rename_i hm
      rw [hm, ih his, Bool.true_and]
    · rename_i hm
      rw [Bool.eq_false_iff.2 hm, Bool.false_and]

theorem monotone_eq {c : Circuit} {inputs : List Nat} (h : ∀ i ∈ inputs, i < c.gates.length)
    (kind : GateKind) : monotone c.gates kind inputs =
      (.ok (kind != .not && inputs.all c.isMonotone) : Checked ε _) := by
  rw [monotone, allMonotone_eq h]
  cases kind <;> rfl

theorem addOutput_eq {g : Nat} {inputs : List Nat} {gates : List Gate}
    (h : ∀ i ∈ inputs, i < gates.length) : addOutput g inputs gates =
      (.ok (inputs.foldl (fun gates i =>
        gates.modify i fun gate => { gate with outputs := gate.outputs ++ [g] }) gates) :
        Checked ε _) := by
  induction inputs generalizing gates with
  | nil => rfl
  | cons i is ih =>
    obtain ⟨hi, his⟩ := List.forall_mem_cons.1 h
    rw [addOutput, List.foldlM_cons, Checked.modify_eq_ok hi, List.foldl_cons]
    exact ih fun j hj => by rw [List.length_modify]; exact his j hj

/-- With the key of a new gate at the end, the keys are those of the circuit with that gate. -/
theorem Sound.lookup_concat_iff (h : n.Sound) {kind : GateKind} {inputs : List Nat}
    (hfind : n.circuit.findGate? kind (ascending inputs) = none) (key : GateKind × List Nat)
    (g : Nat) :
    (n.keys ++ [((kind, ascending inputs), n.circuit.gates.length)]).lookup key = some g ↔
      (n.circuit.addGate kind inputs).1.shape? g = some key := by
  rw [List.lookup_append]
  rcases eq_or_ne key (kind, ascending inputs) with rfl | hne
  · -- no gate before the new one has its key
    rw [h.lookup_eq, hfind, Option.none_or, List.lookup_cons_self,
      Circuit.shape?_addGate_eq_self_iff hfind, Option.some.injEq, eq_comm]
  · rw [List.lookup_cons, beq_false_of_ne hne, List.lookup_nil, Option.or_none, h.lookup_iff,
      Circuit.shape?_addGate_eq_iff hfind hne]

/-- With the place of a new gate of a literal at the front, the places are those of the circuit with
that gate. -/
theorem Sound.lookup_storeGate_iff (h : n.Sound) {kind : GateKind} {inputs : List Nat}
    (hfind : n.circuit.findGate? kind (ascending inputs) = none)
    (hkind : ∀ id, kind = .literal id → inputs = []) (id g : Nat) :
    (storeGate kind n.circuit.gates.length n.literalGates).lookup id = some g ↔
      (n.circuit.addGate kind inputs).1.shape? g = some (.literal id, []) := by
  have hold (hne : (.literal id, []) ≠ (kind, ascending inputs)) :
      n.literalGates.lookup id = some g ↔
        (n.circuit.addGate kind inputs).1.shape? g = some (.literal id, []) := by
    rw [h.lookup_literalGates_iff, Circuit.shape?_addGate_eq_iff hfind hne]
  cases kind with
  | literal id' =>
    obtain rfl := hkind id' rfl
    rw [storeGate]
    rcases eq_or_ne id id' with rfl | hne
    · have hself := Circuit.shape?_addGate_eq_self_iff hfind g
      rw [List.lookup_cons_self, Option.some.injEq, eq_comm]
      exact hself.symm
    · rw [List.lookup_cons, beq_false_of_ne hne]
      exact hold (by simp [hne])
  | _ => exact hold (by simp)

/-- A gate over gates of a network is added without a look outside. -/
theorem Sound.succeeds_addGate (h : n.Sound) {kind : GateKind} {inputs : List Nat}
    (hinputs : ∀ i ∈ inputs, i < n.circuit.gates.length)
    (hkind : ∀ id, kind = .literal id → inputs = []) :
    Succeeds (n.addGate kind inputs : Checked ε _) fun p => p.1.Sound ∧
      p.1.circuit = (n.circuit.addGate kind inputs).1 ∧
      p.2 = (n.circuit.addGate kind inputs).2 := by
  have hasc : ∀ i ∈ ascending inputs, i < n.circuit.gates.length := fun i hi =>
    hinputs i (mem_ascending.1 hi)
  have hlookup := h.lookup_eq kind (ascending inputs)
  cases hfind : n.circuit.findGate? kind (ascending inputs) with
  | some g =>
    rw [Circuit.addGate_of_some hfind]
    refine ⟨(n, g), ?_, h, rfl, rfl⟩
    simp only [addGate, hlookup, hfind]
  | none =>
    let n' : Network := ⟨(n.circuit.addGate kind inputs).1,
      n.keys ++ [((kind, ascending inputs), n.circuit.gates.length)],
      storeGate kind n.circuit.gates.length n.literalGates⟩
    have hn' : n'.Sound := ⟨h.wellFormed.addGate hinputs hkind, h.lookup_concat_iff hfind,
      h.lookup_storeGate_iff hfind hkind⟩
    refine ⟨(n', n.circuit.gates.length), ?_, hn', rfl, (Circuit.snd_addGate_of_none hfind).symm⟩
    simp only [addGate, hlookup, hfind, monotone_eq hasc, addOutput_eq hasc, n', Circuit.addGate]
    rfl

/-- Listing a condition changes no key. -/
theorem Sound.succeeds_listRule (h : n.Sound) {rule : CircuitRule}
    (hroot : rule.root < n.circuit.gates.length) :
    Succeeds (n.listRule rule : Checked ε _) fun n' =>
      n'.Sound ∧ n'.circuit = n.circuit.listRule rule := by
  refine ⟨⟨n.circuit.listRule rule, n.keys, n.literalGates⟩, ?_,
    ⟨h.wellFormed.listRule hroot, fun key g => ?_, fun id g => ?_⟩, rfl⟩
  · simp only [listRule, Checked.modify_eq_ok hroot]
    rfl
  · rw [h.lookup_iff, Circuit.shape?_listRule]
  · rw [h.lookup_literalGates_iff, Circuit.shape?_listRule]

end Network

/-! ## Literals -/

theorem register_ext : ∀ {r s : Register}, r.literals = s.literals → r = s
  | ⟨_, _⟩, ⟨_, _⟩, rfl => rfl

/-- With the number of a new literal at the end, the stored numbers are those that a search finds in
the register with that literal. -/
theorem lookup_concat_eq {r s : Register} {ids : List (Literal × Nat)}
    (h : ∀ k, ids.lookup k = r.id? k) {l : Literal} (hl : ids.lookup l = none)
    (hs : s.literals = r.literals ++ [l]) (k : Literal) :
    (ids ++ [(l, r.size)]).lookup k = s.id? k := by
  rw [List.lookup_append]
  rcases eq_or_ne k l with rfl | hne
  · rw [hl, Option.none_or, List.lookup_cons_self, eq_comm, Register.id?_eq_some_iff,
      Register.literal?, hs]
    simp [Register.size]
  · rw [List.lookup_cons, beq_false_of_ne hne, List.lookup_nil, Option.or_none, h]
    ext id
    rw [Register.id?_eq_some_iff, Register.id?_eq_some_iff, Register.literal?, Register.literal?, hs,
      List.getElem?_append]
    split
    · rfl
    · rename_i hid
      rw [List.getElem?_eq_none (Nat.le_of_not_lt hid), List.getElem?_singleton]
      simp [hne.symm]

/-- A register with the number of each literal under the literal. -/
structure LiteralTable extends Register where
  ids : List (Literal × Nat)
  /-- The stored numbers are those that a search finds. -/
  lookup_ids : ∀ l, ids.lookup l = toRegister.id? l

namespace LiteralTable

theorem lookup_ids_empty (l : Literal) :
    ([] : List (Literal × Nat)).lookup l = Register.id? ⟨[], List.nodup_nil⟩ l := rfl

/-- The table without literals. -/
def empty : LiteralTable := ⟨⟨[], List.nodup_nil⟩, [], lookup_ids_empty⟩

/-- The table with one more literal, and the number of the literal. -/
def insert (t : LiteralTable) (l : Literal) : LiteralTable × Nat :=
  match h : t.ids.lookup l with
  | some id => (t, id)
  | none =>
    let register : Register :=
      ⟨t.literals ++ [l], Register.nodup_append ((t.lookup_ids l).symm.trans h)⟩
    (⟨register, t.ids ++ [(l, t.size)], lookup_concat_eq t.lookup_ids h rfl⟩, t.size)

theorem insert_eq (t : LiteralTable) (l : Literal) :
    (t.insert l).1.toRegister = (t.toRegister.insert l).1 ∧
      (t.insert l).2 = (t.toRegister.insert l).2 := by
  rw [insert]
  split
  · rename_i id hid
    rw [t.lookup_ids] at hid
    rw [Register.insert_of_some hid]
    exact ⟨rfl, rfl⟩
  · rename_i hid
    rw [t.lookup_ids] at hid
    obtain ⟨hliterals, hlast⟩ := Register.insert_of_none hid
    exact ⟨register_ext hliterals.symm, hlast.symm⟩

end LiteralTable

/-! ## Conditions -/

/-- A network, the literals that it asks for, and the numbers of those that are new. -/
structure Wiring where
  network : Network
  register : LiteralTable
  fresh : List Nat := []

namespace Wiring

/-- The wiring with a literal, and the number of the literal. -/
def addLiteral (w : Wiring) (l : Literal) : Wiring × Nat :=
  let known := (w.register.ids.lookup l).isSome
  let (register, id) := w.register.insert l
  ({ w with register, fresh := if known then w.fresh else w.fresh ++ [id] }, id)

/-- The wiring with a gate, and the place of the gate. -/
def addGate (w : Wiring) (kind : GateKind) (inputs : List Nat) : Checked ε (Wiring × Nat) := do
  let (network, g) ← w.network.addGate kind inputs
  return ({ w with network }, g)

mutual

/-- The wiring with the gates of a condition, and the place of the gate that it ends in. -/
def addCondition (w : Wiring) : Condition → Checked ε (Wiring × Nat)
  | .literal l => (w.addLiteral l).1.addGate (.literal (w.addLiteral l).2) []
  | .all fs => do
    let (w, gs) ← addConditions w fs
    w.addGate .all gs
  | .any fs => do
    let (w, gs) ← addConditions w fs
    w.addGate .any gs
  | .not f => do
    let (w, g) ← addCondition w f
    w.addGate .not [g]

/-- The same for several conditions. -/
def addConditions (w : Wiring) : List Condition → Checked ε (Wiring × List Nat)
  | [] => .ok (w, [])
  | f :: fs => do
    let (w, g) ← addCondition w f
    let (w, gs) ← addConditions w fs
    return (w, g :: gs)

end

/-- The wiring with the condition of one more rule. -/
def withRule (w : Wiring) (rule : Nat) (condition : Condition) : Checked ε Wiring := do
  let (w, root) ← w.addCondition condition
  let positive := ascending (condition.positiveLiterals.filterMap (w.register.ids.lookup ·))
  let network ← w.network.listRule { rule, root, positive }
  return { w with network }

/-- The wiring of a circuit and a register, whose new literals are those above a number. -/
structure Follows (w : Wiring) (base : Nat) (c : Circuit) (r : Register) : Prop where
  sound : w.network.Sound
  circuit : w.network.circuit = c
  register : w.register.toRegister = r
  fresh : List.range base ++ w.fresh = List.range r.size

namespace Follows

variable {w : Wiring} {base : Nat} {c : Circuit} {r : Register}

theorem wellFormed (h : w.Follows base c r) : c.WellFormed := h.circuit ▸ h.sound.wellFormed

/-- A new literal has the next number. -/
theorem addLiteral (h : w.Follows base c r) (l : Literal) :
    (w.addLiteral l).1.Follows base c (r.insert l).1 ∧ (w.addLiteral l).2 = (r.insert l).2 := by
  obtain ⟨hsound, hcircuit, rfl, hfresh⟩ := h
  obtain ⟨hregister, hnumber⟩ := w.register.insert_eq l
  refine ⟨⟨hsound, hcircuit, hregister, ?_⟩, hnumber⟩
  rw [Wiring.addLiteral]
  dsimp only
  rw [hnumber, w.register.lookup_ids]
  cases hid : w.register.id? l with
  | some id => simpa [Register.insert_of_some hid] using hfresh
  | none =>
    obtain ⟨hliterals, hlast⟩ := Register.insert_of_none hid
    simp [← List.append_assoc, hfresh, hlast, Register.size, hliterals, List.range_succ]

theorem succeeds_addGate (h : w.Follows base c r) {kind : GateKind} {inputs : List Nat}
    (hinputs : ∀ i ∈ inputs, i < c.gates.length) (hkind : ∀ id, kind = .literal id → inputs = []) :
    Succeeds (w.addGate kind inputs : Checked ε _) fun p =>
      p.1.Follows base (c.addGate kind inputs).1 r ∧ p.2 = (c.addGate kind inputs).2 := by
  obtain ⟨hsound, rfl, rfl, hfresh⟩ := h
  refine (hsound.succeeds_addGate hinputs hkind).bind fun p hp => ?_
  obtain ⟨hp, hcircuit, hg⟩ := hp
  exact ⟨_, rfl, ⟨hp, hcircuit, rfl, hfresh⟩, hg⟩

/-- The gates of conditions look at no place outside if those of each of them do not. -/
theorem succeeds_addConditions {fs : List Condition}
    (ih : ∀ f ∈ fs, ∀ {w : Wiring} {c : Circuit} {r : Register}, w.Follows base c r →
      Succeeds (w.addCondition f : Checked ε _) fun p =>
        p.1.Follows base (c.addCondition r f).1 (c.addCondition r f).2.1 ∧
          p.2 = (c.addCondition r f).2.2)
    (h : w.Follows base c r) : Succeeds (w.addConditions fs : Checked ε _) fun p =>
      p.1.Follows base (c.addConditions r fs).1 (c.addConditions r fs).2.1 ∧
        p.2 = (c.addConditions r fs).2.2 := by
  induction fs generalizing w c r with
  | nil => exact ⟨_, rfl, h, rfl⟩
  | cons f fs ihs =>
    rw [Wiring.addConditions, Circuit.addConditions]
    refine (ih f List.mem_cons_self h).bind ?_
    rintro ⟨w', g⟩ ⟨hw', rfl⟩
    refine (ihs (fun f hf => ih f (List.mem_cons_of_mem _ hf)) hw').bind ?_
    rintro ⟨w'', gs⟩ ⟨hw'', rfl⟩
    exact ⟨_, rfl, hw'', rfl⟩

/-- The gates of a condition are those of the circuit, and are added without a look outside. -/
theorem succeeds_addCondition (h : w.Follows base c r) (f : Condition) :
    Succeeds (w.addCondition f : Checked ε _) fun p =>
      p.1.Follows base (c.addCondition r f).1 (c.addCondition r f).2.1 ∧
        p.2 = (c.addCondition r f).2.2 := by
  -- the gates of the operands are there before that of the operator
  have hlt {c : Circuit} {r : Register} (hc : c.WellFormed) (fs : List Condition) :
      ∀ g ∈ (c.addConditions r fs).2.2, g < (c.addConditions r fs).1.gates.length :=
    (Circuit.denotesAll_addConditions (fun f _ _ hc r => Circuit.denotes_addCondition hc r f) hc
      r).2.lt_length
  induction f using Formula.induct generalizing w c r with
  | literal l =>
    rw [Wiring.addCondition, Circuit.addCondition]
    obtain ⟨hl, hid⟩ := h.addLiteral l
    rw [hid]
    exact hl.succeeds_addGate (by simp) fun _ _ => rfl
  | all fs ih =>
    rw [Wiring.addCondition, Circuit.addCondition]
    refine (succeeds_addConditions (fun f hf _ _ _ h => ih f hf h) h).bind ?_
    rintro ⟨w', gs⟩ ⟨hw', rfl⟩
    exact hw'.succeeds_addGate (hlt h.wellFormed fs) (by simp)
  | any fs ih =>
    rw [Wiring.addCondition, Circuit.addCondition]
    refine (succeeds_addConditions (fun f hf _ _ _ h => ih f hf h) h).bind ?_
    rintro ⟨w', gs⟩ ⟨hw', rfl⟩
    exact hw'.succeeds_addGate (hlt h.wellFormed fs) (by simp)
  | not f ih =>
    rw [Wiring.addCondition, Circuit.addCondition]
    have hd := (Circuit.denotes_addCondition h.wellFormed r f).2
    refine (ih h).bind ?_
    rintro ⟨w', g⟩ ⟨hw', rfl⟩
    exact hw'.succeeds_addGate (by simpa using hd.lt_length) (by simp)

/-- The gate that a condition ends in is there, so that the condition can be listed at it. -/
theorem succeeds_withRule (h : w.Follows base c r) (rule : Nat) (f : Condition) :
    Succeeds (w.withRule rule f : Checked ε _) fun w' =>
      w'.Follows base (c.withRule r rule f).1 (c.withRule r rule f).2 := by
  have hd := (Circuit.denotes_addCondition h.wellFormed r f).2
  rw [Circuit.withRule_eq]
  refine (h.succeeds_addCondition f).bind ?_
  rintro ⟨⟨n, t, fresh⟩, root⟩ ⟨⟨hsound, hcircuit, hregister, hfresh⟩, rfl⟩
  have hids : (t.ids.lookup ·) = (c.addCondition r f).2.1.id? := by
    rw [← hregister]
    exact funext t.lookup_ids
  refine (hsound.succeeds_listRule (by rw [hcircuit]; exact hd.lt_length)).bind fun n' hn' => ?_
  exact ⟨_, rfl, hn'.1, by rw [hn'.2, hcircuit, hids], hregister, hfresh⟩

end Follows

end Wiring

end QueryRules.Places
