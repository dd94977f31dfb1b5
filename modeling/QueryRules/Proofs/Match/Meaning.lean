import Mathlib.Data.List.Forall2
import QueryRules.Proofs.Formula
import QueryRules.Proofs.Match.Gates

/-!
# What the gates of a circuit mean

- `Circuit.Denotes c r f g`: the gate `g` and the gates below it are built like the condition `f`,
  with the literals numbered by the register `r`. Adding a condition gives such a gate
  (`denotes_addCondition`), and it stays one when more conditions are added (`Denotes.mono`).
- `Circuit.Consistent`: values of the gates that fit together over the literals that were met.
  `Denotes.value_eq`: the gate of a condition has the value of the condition.
- `Denotes.isMonotone_eq`: the gate of a condition is monotone if the condition has no not.
- `withRule_spec`: what adding the condition of a rule does.
-/

namespace QueryRules

namespace Register

/-- The literals of one register are numbered in the same way by another. -/
def Extends (r r' : Register) : Prop := r.literals <+: r'.literals

theorem Extends.refl (r : Register) : r.Extends r := List.prefix_refl _

theorem Extends.trans {r r' r'' : Register} (h : r.Extends r') (h' : r'.Extends r'') :
    r.Extends r'' := List.IsPrefix.trans h h'

theorem Extends.literal? {r r' : Register} (h : r.Extends r') {id : Nat} {l : Literal}
    (hl : r.literal? id = some l) : r'.literal? id = some l := by
  obtain ⟨ls, hls⟩ := h
  have hlt := (List.getElem?_eq_some_iff.1 hl).1
  rw [Register.literal?, ← hls, List.getElem?_append_left hlt]
  exact hl

theorem extends_insert (r : Register) (l : Literal) : r.Extends (r.insert l).1 := by
  rw [Extends, insert]
  split
  · exact List.prefix_refl _
  · exact List.prefix_append ..

theorem literal?_insert_self (r : Register) (l : Literal) :
    (r.insert l).1.literal? (r.insert l).2 = some l :=
  id?_eq_some_iff.1 (r.id?_insert_self l)

end Register

namespace Circuit

mutual

/-- The gate and those below it are built like a condition. -/
def Denotes (c : Circuit) (r : Register) : Condition → Nat → Prop
  | .literal l, g => ∃ id, r.literal? id = some l ∧ c.shape? g = some (.literal id, [])
  | .all fs, g => ∃ gs, DenotesAll c r fs gs ∧ c.shape? g = some (.all, ascending gs)
  | .any fs, g => ∃ gs, DenotesAll c r fs gs ∧ c.shape? g = some (.any, ascending gs)
  | .not f, g => ∃ h, Denotes c r f h ∧ c.shape? g = some (.not, [h])

/-- The gates are built like several conditions, one by one. -/
def DenotesAll (c : Circuit) (r : Register) : List Condition → List Nat → Prop
  | [], gs => gs = []
  | f :: fs, gs => ∃ g gs', gs = g :: gs' ∧ Denotes c r f g ∧ DenotesAll c r fs gs'

end

theorem denotesAll_iff {c : Circuit} {r : Register} {fs : List Condition} {gs : List Nat} :
    c.DenotesAll r fs gs ↔ List.Forall₂ (c.Denotes r) fs gs := by
  induction fs generalizing gs with
  | nil => simp [DenotesAll, List.forall₂_nil_left_iff]
  | cons f fs ih =>
    rw [DenotesAll, List.forall₂_cons_left_iff]
    simp only [ih]
    constructor
    · rintro ⟨g, gs', rfl, h, hs⟩
      exact ⟨g, gs', h, hs, rfl⟩
    · rintro ⟨g, gs', h, hs, rfl⟩
      exact ⟨g, gs', rfl, h, hs⟩

variable {c c' : Circuit} {r r' : Register}

theorem Denotes.lt_length {f : Condition} {g : Nat} (h : c.Denotes r f g) :
    g < c.gates.length := by
  have hs : (c.shape? g).isSome := by
    cases f with
    | literal l => rw [Denotes] at h; obtain ⟨id, -, h⟩ := h; simp [h]
    | all fs => rw [Denotes] at h; obtain ⟨gs, -, h⟩ := h; simp [h]
    | any fs => rw [Denotes] at h; obtain ⟨gs, -, h⟩ := h; simp [h]
    | not f => rw [Denotes] at h; obtain ⟨i, -, h⟩ := h; simp [h]
  obtain ⟨s, hs⟩ := Option.isSome_iff_exists.1 hs
  exact lt_length_of_shape? hs

/-- What a gate means stays the same when gates and literals are added. -/
theorem Denotes.mono (hc : c.Extends c') (hr : r.Extends r') {f : Condition} {g : Nat}
    (h : c.Denotes r f g) : c'.Denotes r' f g := by
  have hall {fs : List Condition} (ih : ∀ f ∈ fs, ∀ {g}, c.Denotes r f g → c'.Denotes r' f g)
      {gs : List Nat} (h : c.DenotesAll r fs gs) : c'.DenotesAll r' fs gs := by
    rw [denotesAll_iff] at h ⊢
    induction h with
    | nil => exact .nil
    | cons h _ ih' =>
      exact .cons (ih _ (by simp) h) (ih' fun f hf => ih f (List.mem_cons_of_mem _ hf))
  induction f using Formula.induct generalizing g with
  | literal l =>
    rw [Denotes] at h ⊢
    obtain ⟨id, hid, h⟩ := h
    exact ⟨id, hr.literal? hid, (hc g _ h).1⟩
  | all fs ih =>
    rw [Denotes] at h ⊢
    obtain ⟨gs, hgs, h⟩ := h
    exact ⟨gs, hall ih hgs, (hc g _ h).1⟩
  | any fs ih =>
    rw [Denotes] at h ⊢
    obtain ⟨gs, hgs, h⟩ := h
    exact ⟨gs, hall ih hgs, (hc g _ h).1⟩
  | not f ih =>
    rw [Denotes] at h ⊢
    obtain ⟨i, hi, h⟩ := h
    exact ⟨i, ih hi, (hc g _ h).1⟩

theorem DenotesAll.mono (hc : c.Extends c') (hr : r.Extends r') {fs : List Condition}
    {gs : List Nat} (h : c.DenotesAll r fs gs) : c'.DenotesAll r' fs gs := by
  rw [denotesAll_iff] at h ⊢
  exact h.imp fun _ _ h => h.mono hc hr

theorem DenotesAll.lt_length {fs : List Condition} {gs : List Nat} (h : c.DenotesAll r fs gs) :
    ∀ g ∈ gs, g < c.gates.length := by
  rw [denotesAll_iff] at h
  induction h with
  | nil => simp
  | cons h _ ih => exact List.forall_mem_cons.2 ⟨h.lt_length, ih⟩

/-- The literals outside every not of a condition that a circuit has are in the register. -/
theorem Denotes.mem_literals {f : Condition} {g : Nat} (h : c.Denotes r f g) {l : Literal}
    (hl : l ∈ f.positiveLiterals) : ∃ id, r.literal? id = some l := by
  have hall {fs : List Condition}
      (ih : ∀ f ∈ fs, ∀ {g}, c.Denotes r f g → l ∈ f.positiveLiterals →
        ∃ id, r.literal? id = some l)
      {gs : List Nat} (h : c.DenotesAll r fs gs) (hl : l ∈ Formula.positiveLiteralsOf fs) :
      ∃ id, r.literal? id = some l := by
    obtain ⟨f, hf, hl⟩ := Formula.mem_positiveLiteralsOf.1 hl
    obtain ⟨i, hi, rfl⟩ := List.getElem_of_mem hf
    obtain ⟨hlen, hgs⟩ := List.forall₂_iff_get.1 (denotesAll_iff.1 h)
    exact ih _ hf (hgs i hi (hlen ▸ hi)) hl
  induction f using Formula.induct generalizing g with
  | literal k =>
    rw [Denotes] at h
    obtain ⟨id, hid, -⟩ := h
    rw [Formula.positiveLiterals, List.mem_singleton] at hl
    exact ⟨id, hl ▸ hid⟩
  | all fs ih =>
    rw [Denotes] at h
    obtain ⟨gs, hgs, -⟩ := h
    exact hall (fun f hf _ h hl => ih f hf h hl) hgs (by rwa [Formula.positiveLiterals] at hl)
  | any fs ih =>
    rw [Denotes] at h
    obtain ⟨gs, hgs, -⟩ := h
    exact hall (fun f hf _ h hl => ih f hf h hl) hgs (by rwa [Formula.positiveLiterals] at hl)
  | not f ih => simp [Formula.positiveLiterals] at hl

/-! ## Adding a condition -/

/-- What adding conditions does to a circuit and a register. -/
structure Grows (c : Circuit) (r : Register) (c' : Circuit) (r' : Register) : Prop where
  wellFormed : c'.WellFormed
  circuit : c.Extends c'
  register : r.Extends r'
  rules : c'.rules = c.rules

theorem Grows.trans {c'' : Circuit} {r'' : Register} (h : c.Grows r c' r')
    (h' : c'.Grows r' c'' r'') : c.Grows r c'' r'' where
  wellFormed := h'.wellFormed
  circuit := h.circuit.trans h'.circuit
  register := h.register.trans h'.register
  rules := h'.rules.trans h.rules

theorem WellFormed.grows_addGate (hc : c.WellFormed) (kind : GateKind) (inputs : List Nat)
    (hi : ∀ i ∈ inputs, i < c.gates.length) (hk : ∀ id, kind = .literal id → inputs = [])
    (r : Register) : c.Grows r (c.addGate kind inputs).1 r where
  wellFormed := hc.addGate hi hk
  circuit := c.extends_addGate kind inputs
  register := .refl r
  rules := rules_addGate

/-- Adding conditions gives gates that are built like them, if adding each of them does. -/
theorem denotesAll_addConditions {fs : List Condition}
    (ih : ∀ f ∈ fs, ∀ {c : Circuit}, c.WellFormed → ∀ r,
      c.Grows r (c.addCondition r f).1 (c.addCondition r f).2.1 ∧
        (c.addCondition r f).1.Denotes (c.addCondition r f).2.1 f (c.addCondition r f).2.2)
    (hc : c.WellFormed) (r : Register) :
    c.Grows r (c.addConditions r fs).1 (c.addConditions r fs).2.1 ∧
      (c.addConditions r fs).1.DenotesAll (c.addConditions r fs).2.1 fs
        (c.addConditions r fs).2.2 := by
  induction fs generalizing c r with
  | nil => exact ⟨⟨hc, .refl c, .refl r, rfl⟩, rfl⟩
  | cons f fs ihs =>
    obtain ⟨hg, hd⟩ := ih f (by simp) hc r
    obtain ⟨hgs, hds⟩ := ihs (fun f hf => ih f (List.mem_cons_of_mem _ hf)) hg.wellFormed
      (c.addCondition r f).2.1
    rw [addConditions]
    exact ⟨hg.trans hgs, _, _, rfl, hd.mono hgs.circuit hgs.register, hds⟩

/-- Adding a condition gives a gate that is built like it. -/
theorem denotes_addCondition (hc : c.WellFormed) (r : Register) (f : Condition) :
    c.Grows r (c.addCondition r f).1 (c.addCondition r f).2.1 ∧
      (c.addCondition r f).1.Denotes (c.addCondition r f).2.1 f (c.addCondition r f).2.2 := by
  -- the gate of an operator over the gates of its operands
  have hop (kind : GateKind) {fs : List Condition} (hk : ∀ id, kind ≠ .literal id)
      {c : Circuit} {r : Register} {c₁ : Circuit} {r₁ : Register} {gs : List Nat}
      (hg : c.Grows r c₁ r₁) (hd : c₁.DenotesAll r₁ fs gs) :
      c.Grows r (c₁.addGate kind gs).1 r₁ ∧ ∃ gs', (c₁.addGate kind gs).1.DenotesAll r₁ fs gs' ∧
        (c₁.addGate kind gs).1.shape? (c₁.addGate kind gs).2 = some (kind, ascending gs') := by
    have hgrow := hg.wellFormed.grows_addGate kind gs hd.lt_length (fun id h => absurd h (hk id)) r₁
    exact ⟨hg.trans hgrow, gs, hd.mono hgrow.circuit hgrow.register,
      c₁.shape?_addGate_self kind gs⟩
  induction f using Formula.induct generalizing c r with
  | literal l =>
    rw [addCondition]
    have hgrow := hc.grows_addGate (.literal (r.insert l).2) [] (by simp)
      (fun _ _ => rfl) (r.insert l).1
    refine ⟨⟨hgrow.wellFormed, hgrow.circuit, r.extends_insert l, hgrow.rules⟩, ?_⟩
    rw [Denotes]
    exact ⟨_, r.literal?_insert_self l, c.shape?_addGate_self _ _⟩
  | all fs ih =>
    rw [addCondition]
    obtain ⟨hg, hd⟩ := denotesAll_addConditions (fun f hf _ hc r => ih f hf hc r) hc r
    obtain ⟨hg, hd⟩ := hop .all (by simp) hg hd
    exact ⟨hg, by rw [Denotes]; exact hd⟩
  | any fs ih =>
    rw [addCondition]
    obtain ⟨hg, hd⟩ := denotesAll_addConditions (fun f hf _ hc r => ih f hf hc r) hc r
    obtain ⟨hg, hd⟩ := hop .any (by simp) hg hd
    exact ⟨hg, by rw [Denotes]; exact hd⟩
  | not f ih =>
    rw [addCondition]
    obtain ⟨hg, hd⟩ := ih hc r
    have hgrow := hg.wellFormed.grows_addGate .not [(c.addCondition r f).2.2]
      (by simpa using hd.lt_length) (by simp) (c.addCondition r f).2.1
    refine ⟨hg.trans hgrow, ?_⟩
    rw [Denotes]
    exact ⟨_, hd.mono hgrow.circuit hgrow.register, shape?_addGate_self ..⟩

/-! ## Values and monotony of gates -/

/-- The value of a gate over the literals that were met, from the values of its inputs. -/
def gateValue (met : Nat → Bool) (values : Nat → Bool) (gate : Gate) : Bool :=
  match gate.kind with
  | .literal id => met id
  | .all => !gate.inputs.isEmpty && gate.inputs.all values
  | .any => gate.inputs.any values
  | .not => !gate.inputs.any values

/-- The values of the gates fit together. -/
def Consistent (c : Circuit) (met : Nat → Bool) (values : Nat → Bool) : Prop :=
  ∀ (g : Nat) (gate : Gate), c.gates[g]? = some gate → values g = gateValue met values gate

theorem all_ascending (p : Nat → Bool) (ns : List Nat) : (ascending ns).all p = ns.all p := by
  rw [Bool.eq_iff_iff, List.all_eq_true, List.all_eq_true]
  simp only [mem_ascending]

theorem any_ascending (p : Nat → Bool) (ns : List Nat) : (ascending ns).any p = ns.any p := by
  rw [Bool.eq_iff_iff, List.any_eq_true, List.any_eq_true]
  simp only [mem_ascending]

theorem isEmpty_ascending (ns : List Nat) : (ascending ns).isEmpty = ns.isEmpty := by
  rw [Bool.eq_iff_iff, List.isEmpty_iff, List.isEmpty_iff, List.eq_nil_iff_forall_not_mem,
    List.eq_nil_iff_forall_not_mem]
  simp only [mem_ascending]

theorem map_eq_of_denotesAll {fs : List Condition} {gs : List Nat} (h : c.DenotesAll r fs gs)
    {p : Nat → Bool} {q : Condition → Bool} (hpq : ∀ f ∈ fs, ∀ {g}, c.Denotes r f g → p g = q f) :
    gs.map p = fs.map q := by
  rw [denotesAll_iff] at h
  induction h with
  | nil => rfl
  | cons h _ ih =>
    rw [List.map_cons, List.map_cons, hpq _ (by simp) h,
      ih fun f hf => hpq f (List.mem_cons_of_mem _ hf)]

/-- The gate of a condition has the value of the condition. -/
theorem Denotes.value_eq {met values : Nat → Bool} (hv : c.Consistent met values)
    {v : Literal → Bool} (hmet : ∀ id l, r.literal? id = some l → met id = v l)
    {f : Condition} {g : Nat} (h : c.Denotes r f g) : values g = f.holds v := by
  have hmap {fs : List Condition} (ih : ∀ f ∈ fs, ∀ {g}, c.Denotes r f g → values g = f.holds v)
      {gs : List Nat} (hgs : c.DenotesAll r fs gs) :
      gs.all values = fs.all (Formula.holds v) ∧ gs.any values = fs.any (Formula.holds v) ∧
        gs.isEmpty = fs.isEmpty := by
    have he : gs.map values = fs.map (Formula.holds v) :=
      map_eq_of_denotesAll hgs fun f hf _ h => ih f hf h
    have hall (p : Nat → Bool) : gs.all p = (gs.map p).all id := by simp
    have hany (p : Nat → Bool) : gs.any p = (gs.map p).any id := by simp
    refine ⟨by rw [hall, he]; simp, by rw [hany, he]; simp, ?_⟩
    rw [← List.isEmpty_map (f := values), he, List.isEmpty_map]
  induction f using Formula.induct generalizing g with
  | literal l =>
    rw [Denotes] at h
    obtain ⟨id, hid, h⟩ := h
    obtain ⟨gate, hg, hk, -⟩ := shape?_eq_some.1 h
    rw [hv g gate hg, gateValue, hk, Formula.holds_literal]
    exact hmet id l hid
  | all fs ih =>
    rw [Denotes] at h
    obtain ⟨gs, hgs, h⟩ := h
    obtain ⟨gate, hg, hk, hin⟩ := shape?_eq_some.1 h
    obtain ⟨hall, -, hempty⟩ := hmap (fun f hf _ h => ih f hf h) hgs
    simp only [hv g gate hg, gateValue, hk, hin, all_ascending, isEmpty_ascending,
      Formula.holds_all, hall, hempty]
  | any fs ih =>
    rw [Denotes] at h
    obtain ⟨gs, hgs, h⟩ := h
    obtain ⟨gate, hg, hk, hin⟩ := shape?_eq_some.1 h
    obtain ⟨-, hany, -⟩ := hmap (fun f hf _ h => ih f hf h) hgs
    simp only [hv g gate hg, gateValue, hk, hin, any_ascending, Formula.holds_any, hany]
  | not f ih =>
    rw [Denotes] at h
    obtain ⟨i, hi, h⟩ := h
    obtain ⟨gate, hg, hk, hin⟩ := shape?_eq_some.1 h
    simp [hv g gate hg, gateValue, hk, hin, ih hi]

/-- The gate of a condition is monotone if the condition has no not. -/
theorem Denotes.isMonotone_eq (hc : c.WellFormed) {f : Condition} {g : Nat}
    (h : c.Denotes r f g) : c.isMonotone g = f.isPositive := by
  have hgate {g : Nat} {kind : GateKind} {inputs : List Nat}
      (h : c.shape? g = some (kind, inputs)) :
      c.isMonotone g = (kind != .not && inputs.all c.isMonotone) := by
    obtain ⟨gate, hg, rfl, rfl⟩ := shape?_eq_some.1 h
    rw [Circuit.isMonotone_eq hg, Bool.eq_iff_iff, hc.monotone_iff g gate hg, Bool.and_eq_true,
      List.all_eq_true, bne_iff_ne]
  have hall {fs : List Condition}
      (ih : ∀ f ∈ fs, ∀ {g}, c.Denotes r f g → c.isMonotone g = f.isPositive)
      {gs : List Nat} (hgs : c.DenotesAll r fs gs) :
      gs.all c.isMonotone = fs.all Formula.isPositive := by
    have he : gs.map c.isMonotone = fs.map Formula.isPositive :=
      map_eq_of_denotesAll hgs fun f hf _ h => ih f hf h
    have hmap (p : Nat → Bool) : gs.all p = (gs.map p).all id := by simp
    rw [hmap, he]
    simp
  induction f using Formula.induct generalizing g with
  | literal l =>
    rw [Denotes] at h
    obtain ⟨id, -, h⟩ := h
    rw [hgate h]
    rfl
  | all fs ih =>
    rw [Denotes] at h
    obtain ⟨gs, hgs, h⟩ := h
    rw [hgate h, all_ascending, hall (fun f hf _ h => ih f hf h) hgs, Formula.isPositive_all]
    rfl
  | any fs ih =>
    rw [Denotes] at h
    obtain ⟨gs, hgs, h⟩ := h
    rw [hgate h, all_ascending, hall (fun f hf _ h => ih f hf h) hgs, Formula.isPositive_any]
    rfl
  | not f ih =>
    rw [Denotes] at h
    obtain ⟨i, -, h⟩ := h
    rw [hgate h]
    rfl

/-! ## The condition of a rule -/

/-- The circuit with one more condition, listed at the gate that it ends in. -/
def listRule (c : Circuit) (rule : CircuitRule) : Circuit :=
  { gates := c.gates.modify rule.root fun g => { g with rules := g.rules ++ [c.rules.length] }
    rules := c.rules ++ [rule] }

/-- The gates before and after a condition is listed. -/
theorem getElem?_gates_listRule (c : Circuit) (rule : CircuitRule) (g : Nat) :
    (c.listRule rule).gates[g]? = (c.gates[g]?).map fun gate =>
      if g = rule.root then { gate with rules := gate.rules ++ [c.rules.length] } else gate := by
  rw [listRule, List.getElem?_modify]
  by_cases h : rule.root = g
  · simp [h]
  · simp [h, Ne.symm h]

/-- A gate of the circuit with one more condition listed, from the gate before. -/
theorem listRule_cases {rule : CircuitRule} {g : Nat} {gate : Gate}
    (h : (c.listRule rule).gates[g]? = some gate) :
    ∃ old, c.gates[g]? = some old ∧ gate.kind = old.kind ∧ gate.inputs = old.inputs ∧
      gate.outputs = old.outputs ∧ gate.monotone = old.monotone ∧
      gate.rules = if g = rule.root then old.rules ++ [c.rules.length] else old.rules := by
  rw [getElem?_gates_listRule] at h
  obtain ⟨old, ho, rfl⟩ := Option.map_eq_some_iff.1 h
  refine ⟨old, ho, ?_⟩
  split <;> exact ⟨rfl, rfl, rfl, rfl, rfl⟩

theorem shape?_listRule (c : Circuit) (rule : CircuitRule) (g : Nat) :
    (c.listRule rule).shape? g = c.shape? g := by
  rw [shape?, getElem?_gates_listRule, shape?, Option.map_map]
  congr 1
  funext gate
  rw [Function.comp_apply]
  split <;> rfl

theorem isMonotone_listRule (c : Circuit) (rule : CircuitRule) (g : Nat) :
    (c.listRule rule).isMonotone g = c.isMonotone g := by
  rw [isMonotone, getElem?_gates_listRule, isMonotone, Option.map_map]
  congr 2
  funext gate
  rw [Function.comp_apply]
  split <;> rfl

theorem extends_listRule (c : Circuit) (rule : CircuitRule) : c.Extends (c.listRule rule) :=
  fun g _ h => ⟨(c.shape?_listRule rule g).trans h, c.isMonotone_listRule rule g⟩

/-- Listing a condition at its gate keeps a circuit well formed. -/
theorem WellFormed.listRule (hc : c.WellFormed) {rule : CircuitRule}
    (hr : rule.root < c.gates.length) : (c.listRule rule).WellFormed := by
  constructor
  case input_lt =>
    intro g gate hg i hi
    obtain ⟨old, ho, -, hin, -⟩ := listRule_cases hg
    exact hc.input_lt g old ho i (hin ▸ hi)
  case ascending_inputs =>
    intro g gate hg
    obtain ⟨old, ho, -, hin, -⟩ := listRule_cases hg
    exact hin ▸ hc.ascending_inputs g old ho
  case literal_inputs =>
    intro g id inputs hg
    exact hc.literal_inputs g id inputs (c.shape?_listRule rule g ▸ hg)
  case nodup_outputs =>
    intro g gate hg
    obtain ⟨old, ho, -, -, hout, -⟩ := listRule_cases hg
    exact hout ▸ hc.nodup_outputs g old ho
  case mem_outputs =>
    intro i gate hg g
    obtain ⟨old, ho, -, -, hout, -⟩ := listRule_cases hg
    rw [hout, hc.mem_outputs i old ho]
    constructor
    · rintro ⟨target, ht, hi⟩
      refine ⟨_, (c.getElem?_gates_listRule rule g).trans (by rw [ht]; rfl), ?_⟩
      split <;> exact hi
    · rintro ⟨target, ht, hi⟩
      obtain ⟨old', ho', -, hin, -⟩ := listRule_cases ht
      exact ⟨old', ho', hin ▸ hi⟩
  case shape_inj =>
    intro g g' he hs
    rw [shape?_listRule, shape?_listRule] at he
    rw [shape?_listRule] at hs
    exact hc.shape_inj g g' he hs
  case monotone_iff =>
    intro g gate hg
    obtain ⟨old, ho, hk, hin, -, hm, -⟩ := listRule_cases hg
    simp only [hm, hk, hin, hc.monotone_iff g old ho, isMonotone_listRule]
  case nodup_rules =>
    intro g gate hg
    obtain ⟨old, ho, -, -, -, -, hrules⟩ := listRule_cases hg
    rw [hrules]
    split
    · refine List.nodup_append.2 ⟨hc.nodup_rules g old ho, by simp, fun x hx y hy => ?_⟩
      obtain ⟨k, hk, -⟩ := (hc.mem_rules g old ho x).1 hx
      have := (List.getElem?_eq_some_iff.1 hk).1
      rw [List.mem_singleton.1 hy]
      omega
    · exact hc.nodup_rules g old ho
  case mem_rules =>
    intro g gate hg k
    obtain ⟨old, ho, -, -, -, -, hrules⟩ := listRule_cases hg
    have hnew : (∃ cr : CircuitRule, (c.listRule rule).rules[k]? = some cr ∧ cr.root = g) ↔
        k ∈ old.rules ∨ (k = c.rules.length ∧ rule.root = g) := by
      rw [hc.mem_rules g old ho, Circuit.listRule]
      rcases Nat.lt_trichotomy k c.rules.length with hk | rfl | hk
      · simp [List.getElem?_append_left hk, Nat.ne_of_lt hk]
      · simp
      · have hnone : (c.rules ++ [rule])[k]? = none :=
          List.getElem?_eq_none (by rw [List.length_append, List.length_singleton]; omega)
        simp [hnone, List.getElem?_eq_none (Nat.le_of_lt hk), Nat.ne_of_gt hk]
    rw [hnew, hrules]
    split
    · simp [*]
    · rename_i hne
      simp [Ne.symm hne]
  case root_lt =>
    intro k cr hk
    have hlen : (c.listRule rule).gates.length = c.gates.length := by
      rw [Circuit.listRule, List.length_modify]
    rw [hlen]
    rw [Circuit.listRule] at hk
    rcases List.mem_append.1 (List.mem_of_getElem? hk) with hm | hm
    · obtain ⟨j, hj⟩ := List.mem_iff_getElem?.1 hm
      exact hc.root_lt j cr hj
    · rw [List.mem_singleton.1 hm]
      exact hr

/-- Adding the condition of a rule adds its gates and lists it at the last of them. -/
theorem withRule_eq (c : Circuit) (r : Register) (rule : Nat) (f : Condition) :
    c.withRule r rule f = ((c.addCondition r f).1.listRule
      ⟨rule, (c.addCondition r f).2.2,
        ascending (f.positiveLiterals.filterMap (c.addCondition r f).2.1.id?)⟩,
      (c.addCondition r f).2.1) := rfl

/-- A circuit with the condition of one more rule: the condition comes last, and the gate that it
ends in is built like it. -/
theorem withRule_spec (hc : c.WellFormed) (r : Register) (rule : Nat) (f : Condition) :
    (c.withRule r rule f).1.WellFormed ∧ c.Extends (c.withRule r rule f).1 ∧
      r.Extends (c.withRule r rule f).2 ∧
      ∃ root, (c.withRule r rule f).1.rules = c.rules ++
        [⟨rule, root, ascending (f.positiveLiterals.filterMap (c.withRule r rule f).2.id?)⟩] ∧
      (c.withRule r rule f).1.Denotes (c.withRule r rule f).2 f root := by
  obtain ⟨hg, hd⟩ := denotes_addCondition hc r f
  rw [withRule_eq]
  refine ⟨hg.wellFormed.listRule hd.lt_length, hg.circuit.trans (extends_listRule _ _),
    hg.register, _, ?_, hd.mono (extends_listRule _ _) (.refl _)⟩
  rw [listRule, hg.rules]

end Circuit

end QueryRules
