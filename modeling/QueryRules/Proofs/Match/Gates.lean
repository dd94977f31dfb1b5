import Mathlib.Data.List.Basic
import QueryRules.Match.Circuit

/-!
# The gates of a circuit

`Circuit.WellFormed` says how the gates and conditions of a circuit are linked: inputs come before
the gate that they feed, the outputs of a gate are the gates that it feeds, no gate stands there
twice, and each condition is listed at the gate that it ends in.

- `getElem?_gates_addGate`, `snd_addGate`: what adding a gate changes.
- `WellFormed.addGate`: adding a gate keeps the circuit well formed.
- `Extends`: the gates of a circuit stay what they are when more of them are added.
-/

namespace QueryRules

theorem mem_insertNumber {n x : Nat} {ms : List Nat} :
    x ∈ insertNumber n ms ↔ x = n ∨ x ∈ ms := by
  induction ms with
  | nil => simp [insertNumber]
  | cons m ms ih =>
    rw [insertNumber]
    split
    · simp
    · split
      · subst_vars; simp
      · rw [List.mem_cons, ih, List.mem_cons]
        exact or_left_comm

theorem pairwise_insertNumber {n : Nat} {ms : List Nat} (h : ms.Pairwise (· < ·)) :
    (insertNumber n ms).Pairwise (· < ·) := by
  induction ms with
  | nil => simp [insertNumber]
  | cons m ms ih =>
    obtain ⟨hm, hs⟩ := List.pairwise_cons.1 h
    rw [insertNumber]
    split
    · rename_i hlt
      refine List.pairwise_cons.2 ⟨fun x hx => ?_, h⟩
      rcases List.mem_cons.1 hx with rfl | hx
      · exact hlt
      · exact Nat.lt_trans hlt (hm x hx)
    · split
      · exact h
      · rename_i hlt hne
        refine List.pairwise_cons.2 ⟨fun x hx => ?_, ih hs⟩
        rcases mem_insertNumber.1 hx with rfl | hx
        · omega
        · exact hm x hx

@[simp] theorem mem_ascending {x : Nat} {ns : List Nat} : x ∈ ascending ns ↔ x ∈ ns := by
  induction ns with
  | nil => rfl
  | cons n ns ih =>
    rw [ascending, List.foldr_cons, mem_insertNumber, List.mem_cons]
    exact or_congr_right ih

theorem pairwise_ascending (ns : List Nat) : (ascending ns).Pairwise (· < ·) := by
  induction ns with
  | nil => exact .nil
  | cons n ns ih => exact pairwise_insertNumber ih

theorem nodup_of_ascending {ns : List Nat} (h : ns.Pairwise (· < ·)) : ns.Nodup :=
  h.imp Nat.ne_of_lt

namespace Circuit

/-- The kind and the inputs of the gate with a number. -/
def shape? (c : Circuit) (g : Nat) : Option (GateKind × List Nat) :=
  (c.gates[g]?).map fun gate => (gate.kind, gate.inputs)

theorem shape?_eq_some {c : Circuit} {g : Nat} {kind : GateKind} {inputs : List Nat} :
    c.shape? g = some (kind, inputs) ↔
      ∃ gate, c.gates[g]? = some gate ∧ gate.kind = kind ∧ gate.inputs = inputs := by
  simp [shape?, Option.map_eq_some_iff]

/-- How the gates and the conditions of a circuit are linked. -/
structure WellFormed (c : Circuit) : Prop where
  /-- A gate comes after its inputs. -/
  input_lt : ∀ (g : Nat) (gate : Gate), c.gates[g]? = some gate → ∀ i ∈ gate.inputs, i < g
  ascending_inputs : ∀ (g : Nat) (gate : Gate), c.gates[g]? = some gate →
    gate.inputs.Pairwise (· < ·)
  literal_inputs : ∀ (g id : Nat) (inputs : List Nat), c.shape? g = some (.literal id, inputs) →
    inputs = []
  nodup_outputs : ∀ (g : Nat) (gate : Gate), c.gates[g]? = some gate → gate.outputs.Nodup
  /-- A gate feeds the gates that have it as an input. -/
  mem_outputs : ∀ (i : Nat) (gate : Gate), c.gates[i]? = some gate → ∀ g : Nat,
    g ∈ gate.outputs ↔ ∃ target : Gate, c.gates[g]? = some target ∧ i ∈ target.inputs
  /-- No gate stands there twice. -/
  shape_inj : ∀ g g' : Nat, c.shape? g = c.shape? g' → (c.shape? g).isSome → g = g'
  monotone_iff : ∀ (g : Nat) (gate : Gate), c.gates[g]? = some gate →
    (gate.monotone ↔ gate.kind ≠ .not ∧ ∀ i ∈ gate.inputs, c.isMonotone i)
  nodup_rules : ∀ (g : Nat) (gate : Gate), c.gates[g]? = some gate → gate.rules.Nodup
  /-- A condition is listed at the gate that it ends in. -/
  mem_rules : ∀ (g : Nat) (gate : Gate), c.gates[g]? = some gate → ∀ k : Nat,
    k ∈ gate.rules ↔ ∃ rule : CircuitRule, c.rules[k]? = some rule ∧ rule.root = g
  root_lt : ∀ (k : Nat) (rule : CircuitRule), c.rules[k]? = some rule → rule.root < c.gates.length

theorem wellFormed_empty : WellFormed {} := by
  constructor <;> simp [shape?]

/-- Every gate of the circuit is still there, with the same inputs. -/
def Extends (c c' : Circuit) : Prop := ∀ g s, c.shape? g = some s →
  c'.shape? g = some s ∧ c'.isMonotone g = c.isMonotone g

theorem Extends.refl (c : Circuit) : c.Extends c := fun _ _ h => ⟨h, rfl⟩

theorem Extends.trans {c c' c'' : Circuit} (h : c.Extends c') (h' : c'.Extends c'') :
    c.Extends c'' := fun g s hg => by
  obtain ⟨h1, h2⟩ := h g s hg
  obtain ⟨h3, h4⟩ := h' g s h1
  exact ⟨h3, h4.trans h2⟩

/-! ## Adding a gate -/

/-- The gate with one more output, if it is one of the inputs. -/
def link (inputs : List Nat) (n i : Nat) (gate : Gate) : Gate :=
  if i ∈ inputs then { gate with outputs := gate.outputs ++ [n] } else gate

@[simp] theorem link_kind (inputs : List Nat) (n i : Nat) (gate : Gate) :
    (link inputs n i gate).kind = gate.kind := by
  rw [link]; split <;> rfl

@[simp] theorem link_inputs (inputs : List Nat) (n i : Nat) (gate : Gate) :
    (link inputs n i gate).inputs = gate.inputs := by
  rw [link]; split <;> rfl

@[simp] theorem link_monotone (inputs : List Nat) (n i : Nat) (gate : Gate) :
    (link inputs n i gate).monotone = gate.monotone := by
  rw [link]; split <;> rfl

@[simp] theorem link_rules (inputs : List Nat) (n i : Nat) (gate : Gate) :
    (link inputs n i gate).rules = gate.rules := by
  rw [link]; split <;> rfl

theorem mem_link_outputs {inputs : List Nat} {n i : Nat} {gate : Gate} {g : Nat} :
    g ∈ (link inputs n i gate).outputs ↔ g ∈ gate.outputs ∨ (i ∈ inputs ∧ g = n) := by
  rw [link]; split <;> simp [*]

/-- Inputs that differ from one another are linked each once. -/
theorem getElem?_foldl_modify {inputs : List Nat} (h : inputs.Nodup) (n : Nat)
    (gates : List Gate) (i : Nat) :
    (inputs.foldl (fun gates i =>
      gates.modify i fun gate => { gate with outputs := gate.outputs ++ [n] }) gates)[i]? =
      (gates[i]?).map (link inputs n i) := by
  induction inputs generalizing gates with
  | nil => simp [show link [] n i = id from funext fun gate => if_neg List.not_mem_nil]
  | cons j inputs ih =>
    obtain ⟨hj, hs⟩ := List.nodup_cons.1 h
    rw [List.foldl_cons, ih hs, List.getElem?_modify]
    rcases eq_or_ne j i with rfl | hne
    · cases gates[j]? <;> simp [link, hj]
    · have hmem : i ∈ j :: inputs ↔ i ∈ inputs := by simp [Ne.symm hne]
      cases gates[i]? <;> simp [link, hne, hmem]

variable {c : Circuit} {kind : GateKind} {inputs : List Nat}

theorem findGate?_eq_some {g : Nat} (h : c.findGate? kind inputs = some g) :
    c.shape? g = some (kind, inputs) := by
  rw [findGate?, List.findIdx?_eq_some_iff_getElem] at h
  obtain ⟨hg, hp, -⟩ := h
  simp only [Bool.and_eq_true, beq_iff_eq] at hp
  simp [shape?, hg, hp]

theorem shape?_ne_of_findGate? (h : c.findGate? kind inputs = none) (g : Nat) :
    c.shape? g ≠ some (kind, inputs) := by
  rw [findGate?, List.findIdx?_eq_none_iff] at h
  intro hg
  obtain ⟨gate, hgate, rfl, rfl⟩ := shape?_eq_some.1 hg
  simpa using h gate (List.mem_of_getElem? hgate)

/-- The number of an added gate belongs to a gate of its kind with its inputs. -/
theorem addGate_of_some {g : Nat} (h : c.findGate? kind (ascending inputs) = some g) :
    c.addGate kind inputs = (c, g) := by
  simp [addGate, h]

/-- A gate that was not there gets the next number. -/
theorem snd_addGate_of_none (h : c.findGate? kind (ascending inputs) = none) :
    (c.addGate kind inputs).2 = c.gates.length := by
  simp [addGate, h]

@[simp] theorem rules_addGate : (c.addGate kind inputs).1.rules = c.rules := by
  rw [addGate]
  split <;> rfl

/-- A gate that was not there comes last, and its inputs are linked to it. -/
theorem getElem?_gates_addGate (h : c.findGate? kind (ascending inputs) = none) (g : Nat) :
    (c.addGate kind inputs).1.gates[g]? =
      if g = c.gates.length then
        some { kind, inputs := ascending inputs
               monotone := kind != .not && (ascending inputs).all c.isMonotone }
      else (c.gates[g]?).map (link (ascending inputs) c.gates.length g) := by
  have hn := nodup_of_ascending (pairwise_ascending inputs)
  have hlen : (List.foldl (fun gates i => gates.modify i fun gate =>
      { gate with outputs := gate.outputs ++ [c.gates.length] }) c.gates
      (ascending inputs)).length = c.gates.length := by
    have (gates : List Gate) : (List.foldl (fun gates i => gates.modify i fun gate =>
        { gate with outputs := gate.outputs ++ [c.gates.length] }) gates
        (ascending inputs)).length = gates.length := by
      induction ascending inputs generalizing gates with
      | nil => rfl
      | cons j js ih => rw [List.foldl_cons, ih, List.length_modify]
    exact this c.gates
  simp only [addGate, h, List.getElem?_append, hlen]
  rcases Nat.lt_trichotomy g c.gates.length with hg | rfl | hg
  · rw [if_pos hg, if_neg (Nat.ne_of_lt hg), getElem?_foldl_modify hn]
  · simp
  · rw [if_neg (Nat.not_lt.2 (Nat.le_of_lt hg)), if_neg (Nat.ne_of_gt hg),
      List.getElem?_eq_none (Nat.le_of_lt hg), List.getElem?_eq_none]
    · rfl
    · simp only [List.length_singleton]
      omega

/-- The other gates keep their kinds and inputs. -/
theorem shape?_addGate (h : c.findGate? kind (ascending inputs) = none) (g : Nat) :
    (c.addGate kind inputs).1.shape? g =
      if g = c.gates.length then some (kind, ascending inputs) else c.shape? g := by
  rw [shape?, getElem?_gates_addGate h]
  split
  · rfl
  · rw [shape?, Option.map_map]
    congr 1
    funext gate
    simp

/-- The key of a new gate is found at the new gate only. -/
theorem shape?_addGate_eq_self_iff (h : c.findGate? kind (ascending inputs) = none) (g : Nat) :
    (c.addGate kind inputs).1.shape? g = some (kind, ascending inputs) ↔ g = c.gates.length := by
  rw [shape?_addGate h]
  split
  · rename_i hg
    exact iff_of_true rfl hg
  · rename_i hg
    exact iff_of_false (shape?_ne_of_findGate? h g) hg

/-- Other keys are found where they were. -/
theorem shape?_addGate_eq_iff (h : c.findGate? kind (ascending inputs) = none)
    {key : GateKind × List Nat} (hne : key ≠ (kind, ascending inputs)) (g : Nat) :
    (c.addGate kind inputs).1.shape? g = some key ↔ c.shape? g = some key := by
  rw [shape?_addGate h]
  split
  · rename_i hg
    have hlast : c.shape? g = none := by simp [shape?, hg]
    simp [hlast, hne.symm]
  · rfl

/-- An added gate is there afterwards. -/
theorem shape?_addGate_self (c : Circuit) (kind : GateKind) (inputs : List Nat) :
    (c.addGate kind inputs).1.shape? (c.addGate kind inputs).2 =
      some (kind, ascending inputs) := by
  cases h : c.findGate? kind (ascending inputs) with
  | some g =>
    rw [addGate_of_some h]
    exact findGate?_eq_some h
  | none =>
    rw [snd_addGate_of_none h, shape?, getElem?_gates_addGate h, if_pos rfl]
    rfl

/-- Adding a gate adds nothing but that gate. -/
theorem exists_shape?_addGate_iff {kind : GateKind} {inputs : List Nat}
    {s : GateKind × List Nat} : (∃ g, (c.addGate kind inputs).1.shape? g = some s) ↔
      (∃ g, c.shape? g = some s) ∨ s = (kind, ascending inputs) := by
  cases hfind : c.findGate? kind (ascending inputs) with
  | some g =>
    rw [addGate_of_some hfind, iff_self_or]
    rintro rfl
    exact ⟨g, findGate?_eq_some hfind⟩
  | none =>
    have hlast : c.shape? c.gates.length = none := by simp [shape?]
    simp only [shape?_addGate hfind]
    constructor
    · rintro ⟨g, hg⟩
      split at hg
      · exact .inr (Option.some.inj hg).symm
      · exact .inl ⟨g, hg⟩
    · rintro (⟨g, hg⟩ | rfl)
      · refine ⟨g, ?_⟩
        rw [if_neg, hg]
        rintro rfl
        exact absurd (hlast.symm.trans hg) (by simp)
      · exact ⟨c.gates.length, if_pos rfl⟩

theorem lt_length_of_shape? {g : Nat} {s : GateKind × List Nat} (h : c.shape? g = some s) :
    g < c.gates.length := by
  obtain ⟨gate, hg, -⟩ := shape?_eq_some.1 (show c.shape? g = some (s.1, s.2) from h)
  exact (List.getElem?_eq_some_iff.1 hg).1

theorem shape?_isSome_of_lt {g : Nat} (h : g < c.gates.length) : (c.shape? g).isSome := by
  simp [shape?, h]

theorem isMonotone_eq {g : Nat} {gate : Gate} (h : c.gates[g]? = some gate) :
    c.isMonotone g = gate.monotone := by
  simp [isMonotone, h]

/-- The gates that were there before an added gate stay what they are. -/
theorem extends_addGate (c : Circuit) (kind : GateKind) (inputs : List Nat) :
    c.Extends (c.addGate kind inputs).1 := by
  cases h : c.findGate? kind (ascending inputs) with
  | some g =>
    rw [addGate_of_some h]
    exact .refl c
  | none =>
    intro g s hs
    have hlt := Nat.ne_of_lt (lt_length_of_shape? hs)
    obtain ⟨gate, hg, h1, h2⟩ := shape?_eq_some.1 (show c.shape? g = some (s.1, s.2) from hs)
    have hg' := getElem?_gates_addGate h g
    rw [if_neg hlt, hg, Option.map_some] at hg'
    refine ⟨?_, ?_⟩
    · simp [shape?, hg', h1, h2]
    · rw [isMonotone_eq hg', isMonotone_eq hg, link_monotone]

theorem Extends.length_le {c' : Circuit} (h : c.Extends c') :
    c.gates.length ≤ c'.gates.length := by
  rcases Nat.eq_zero_or_pos c.gates.length with h0 | hpos
  · omega
  · obtain ⟨s, hs⟩ := Option.isSome_iff_exists.1
      (shape?_isSome_of_lt (c := c) (g := c.gates.length - 1) (by omega))
    have := lt_length_of_shape? (h _ s hs).1
    omega

/-- The gates before and after a gate that was not there is added. -/
theorem addGate_cases (h : c.findGate? kind (ascending inputs) = none) {g : Nat} {gate : Gate}
    (hg : (c.addGate kind inputs).1.gates[g]? = some gate) :
    (g = c.gates.length ∧ gate.kind = kind ∧ gate.inputs = ascending inputs ∧
      gate.outputs = [] ∧ gate.rules = [] ∧
      gate.monotone = (kind != .not && (ascending inputs).all c.isMonotone)) ∨
    (g < c.gates.length ∧ ∃ old, c.gates[g]? = some old ∧
      gate = link (ascending inputs) c.gates.length g old) := by
  rw [getElem?_gates_addGate h] at hg
  split at hg
  · obtain rfl := Option.some.inj hg
    exact .inl ⟨‹_›, rfl, rfl, rfl, rfl, rfl⟩
  · obtain ⟨old, ho, rfl⟩ := Option.map_eq_some_iff.1 hg
    exact .inr ⟨(List.getElem?_eq_some_iff.1 ho).1, old, ho, rfl⟩

/-- The gates still feed those that have them as inputs once a gate is added that was not there. -/
theorem WellFormed.mem_outputs_addGate (hc : c.WellFormed) (hi : ∀ i ∈ inputs, i < c.gates.length)
    (h : c.findGate? kind (ascending inputs) = none) {i : Nat} {gate : Gate}
    (hg : (c.addGate kind inputs).1.gates[i]? = some gate) (g : Nat) :
    g ∈ gate.outputs ↔
      ∃ target, (c.addGate kind inputs).1.gates[g]? = some target ∧ i ∈ target.inputs := by
  rcases addGate_cases h hg with ⟨rfl, -, -, hout, -⟩ | ⟨hlt, old, ho, rfl⟩
  · -- the new gate feeds nothing: all inputs are below it
    rw [hout]
    simp only [List.not_mem_nil, false_iff, not_exists, not_and]
    intro target ht hm
    rcases addGate_cases h ht with ⟨rfl, -, hin, -⟩ | ⟨-, old, ho, rfl⟩
    · exact Nat.lt_irrefl _ (hi _ (mem_ascending.1 (hin ▸ hm)))
    · have h1 := hc.input_lt g old ho _ (by simpa using hm)
      have h2 := (List.getElem?_eq_some_iff.1 ho).1
      omega
  · rw [mem_link_outputs, hc.mem_outputs i old ho]
    constructor
    · rintro (⟨target, ht, hm⟩ | ⟨hm, rfl⟩)
      · have hne := Nat.ne_of_lt (List.getElem?_eq_some_iff.1 ht).1
        refine ⟨link (ascending inputs) c.gates.length g target, ?_, by simpa using hm⟩
        rw [getElem?_gates_addGate h, if_neg hne, ht]
        rfl
      · obtain ⟨target, ht, -, hin⟩ := shape?_eq_some.1 (c.shape?_addGate_self kind inputs)
        rw [snd_addGate_of_none h] at ht
        exact ⟨target, ht, hin ▸ hm⟩
    · rintro ⟨target, ht, hm⟩
      rcases addGate_cases h ht with ⟨rfl, -, hin, -⟩ | ⟨-, old', ho', rfl⟩
      · exact .inr ⟨hin ▸ hm, rfl⟩
      · exact .inl ⟨old', ho', by simpa using hm⟩

/-- Adding a gate keeps a circuit well formed. -/
theorem WellFormed.addGate (hc : c.WellFormed) (hi : ∀ i ∈ inputs, i < c.gates.length)
    (hk : ∀ id, kind = .literal id → inputs = []) : (c.addGate kind inputs).1.WellFormed := by
  cases h : c.findGate? kind (ascending inputs) with
  | some g =>
    rw [addGate_of_some h]
    exact hc
  | none =>
    have hext : c.Extends (c.addGate kind inputs).1 := c.extends_addGate kind inputs
    have hmono {i : Nat} (hlt : i < c.gates.length) :
        (c.addGate kind inputs).1.isMonotone i = c.isMonotone i := by
      obtain ⟨s, hs⟩ := Option.isSome_iff_exists.1 (shape?_isSome_of_lt hlt)
      exact (hext i s hs).2
    have hshape := shape?_addGate h
    constructor
    case input_lt =>
      intro g gate hg i hm
      rcases addGate_cases h hg with ⟨rfl, -, hin, -⟩ | ⟨-, old, ho, rfl⟩
      · exact hi i (mem_ascending.1 (hin ▸ hm))
      · exact hc.input_lt g old ho i (by simpa using hm)
    case ascending_inputs =>
      intro g gate hg
      rcases addGate_cases h hg with ⟨-, -, hin, -⟩ | ⟨-, old, ho, rfl⟩
      · rw [hin]; exact pairwise_ascending inputs
      · rw [link_inputs]; exact hc.ascending_inputs g old ho
    case literal_inputs =>
      intro g id ins hg
      rw [hshape] at hg
      split at hg
      · simp only [Option.some.injEq, Prod.mk.injEq] at hg
        rw [← hg.2, hk id hg.1]
        rfl
      · exact hc.literal_inputs g id ins hg
    case nodup_outputs =>
      intro g gate hg
      rcases addGate_cases h hg with ⟨-, -, -, hout, -⟩ | ⟨-, old, ho, rfl⟩
      · rw [hout]; exact .nil
      · rw [link]
        split
        · refine List.nodup_append.2 ⟨hc.nodup_outputs g old ho, by simp, fun x hx y hy => ?_⟩
          obtain ⟨target, ht, -⟩ := (hc.mem_outputs g old ho x).1 hx
          have := (List.getElem?_eq_some_iff.1 ht).1
          rw [List.mem_singleton.1 hy]
          omega
        · exact hc.nodup_outputs g old ho
    case mem_outputs => exact fun i gate hg g => hc.mem_outputs_addGate hi h hg g
    case shape_inj =>
      intro g g' he hs
      have hnew := shape?_ne_of_findGate? h
      rw [hshape, hshape] at he
      rw [hshape] at hs
      split at he <;> split at he
      · omega
      · exact absurd he.symm (hnew g')
      · exact absurd he (hnew g)
      · rw [if_neg ‹_›] at hs
        exact hc.shape_inj g g' he hs
    case monotone_iff =>
      intro g gate hg
      rcases addGate_cases h hg with ⟨rfl, hkind, hin, -, -, hm⟩ | ⟨hlt, old, ho, rfl⟩
      · rw [hm, hkind, hin, Bool.and_eq_true, List.all_eq_true, bne_iff_ne]
        refine and_congr_right fun _ => forall₂_congr fun i hm => ?_
        rw [hmono (hi i (mem_ascending.1 hm))]
      · rw [link_monotone, link_kind, link_inputs, hc.monotone_iff g old ho]
        refine and_congr_right fun _ => forall₂_congr fun i hm => ?_
        rw [hmono (Nat.lt_trans (hc.input_lt g old ho i hm) hlt)]
    case nodup_rules =>
      intro g gate hg
      rcases addGate_cases h hg with ⟨-, -, -, -, hr, -⟩ | ⟨-, old, ho, rfl⟩
      · rw [hr]; exact .nil
      · rw [link_rules]; exact hc.nodup_rules g old ho
    case mem_rules =>
      intro g gate hg k
      rw [rules_addGate]
      rcases addGate_cases h hg with ⟨rfl, -, -, -, hr, -⟩ | ⟨-, old, ho, rfl⟩
      · rw [hr]
        simp only [List.not_mem_nil, false_iff, not_exists, not_and]
        intro rule hk
        exact Nat.ne_of_lt (hc.root_lt k rule hk)
      · rw [link_rules]
        exact hc.mem_rules g old ho k
    case root_lt =>
      intro k rule hk
      rw [rules_addGate] at hk
      exact Nat.lt_of_lt_of_le (hc.root_lt k rule hk) hext.length_le

end Circuit

end QueryRules
