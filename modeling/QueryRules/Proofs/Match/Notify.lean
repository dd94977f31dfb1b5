import Mathlib.Data.List.Induction
import QueryRules.Proofs.Match.Hull
import QueryRules.Proofs.Match.Settle

/-!
# Reports to a run

- `Invariant.notify`: a run to which a literal is reported knows one literal more.
- `notifyAll`: reports one after the other. `spans_notifyAll`: each literal covers the hull of what
  was reported for it.
- `Invariant.consistent`: the values that `Run.values` gives to the gates fit together over the
  literals that were reported. So a condition without a not has come to hold exactly if it holds
  over these literals (`Invariant.fired_eq`), and `Run.finish` sees the value of every other
  condition (`Invariant.value_root`).
-/

namespace QueryRules

/-- Values computed one after the other, each from those before it. -/
theorem getElem?_foldl_concat {α β : Type} (f : List β → α → β) (as : List α) :
    (as.foldl (fun bs a => bs ++ [f bs a]) []).length = as.length ∧
      ∀ (n : Nat) (a : α), as[n]? = some a →
        (as.foldl (fun bs a => bs ++ [f bs a]) [])[n]? =
          some (f ((as.foldl (fun bs a => bs ++ [f bs a]) []).take n) a) := by
  induction as using List.reverseRecOn with
  | nil => simp
  | append_singleton as b ih =>
    obtain ⟨hlen, hget⟩ := ih
    rw [List.foldl_append, List.foldl_cons, List.foldl_nil]
    refine ⟨by simp [hlen], fun n a hn => ?_⟩
    rcases Nat.lt_or_ge n as.length with hlt | hge
    · rw [List.getElem?_append_left hlt] at hn
      rw [List.getElem?_append_left (hlen ▸ hlt), hget n a hn,
        List.take_append_of_le_length (by omega)]
    · obtain ⟨hlt, -⟩ := List.getElem?_eq_some_iff.1 hn
      rw [List.length_append, List.length_singleton] at hlt
      obtain rfl : n = as.length := by omega
      rw [List.getElem?_concat_length] at hn
      obtain rfl := Option.some.inj hn
      rw [← hlen, List.getElem?_concat_length, List.take_left]

theorem all_congr_of_mem {α : Type} {as : List α} {p q : α → Bool} (h : ∀ a ∈ as, p a = q a) :
    as.all p = as.all q := by
  rw [Bool.eq_iff_iff, List.all_eq_true, List.all_eq_true]
  exact forall₂_congr fun a ha => by rw [h a ha]

theorem any_congr_of_mem {α : Type} {as : List α} {p q : α → Bool} (h : ∀ a ∈ as, p a = q a) :
    as.any p = as.any q := by
  rw [Bool.eq_iff_iff, List.any_eq_true, List.any_eq_true]
  exact exists_congr fun a => and_congr_right fun ha => by rw [h a ha]

namespace Run

variable {c : Circuit} {met out : Nat → Bool} {r : Run} {stack : List Nat}

/-! ## Reporting a literal -/

theorem Invariant.congr {met' : Nat → Bool} (h : Invariant c met out r stack)
    (he : ∀ g id inputs, c.shape? g = some (.literal id, inputs) → met' id = met id) :
    Invariant c met' out r stack :=
  { h with
    literal := fun g id inputs hs => (h.literal g id inputs hs).trans (he g id inputs hs).symm }

theorem literalGate?_eq_some (hc : c.WellFormed) {id g : Nat} (h : c.literalGate? id = some g) :
    c.shape? g = some (.literal id, []) := by
  rw [Circuit.literalGate?, List.findIdx?_eq_some_iff_getElem] at h
  obtain ⟨hg, hk, -⟩ := h
  have hs : c.shape? g = some (.literal id, c.gates[g].inputs) := by
    simp only [beq_iff_eq] at hk
    rw [Circuit.shape?, List.getElem?_eq_getElem hg, Option.map_some, hk]
  rw [hs, hc.literal_inputs g id _ hs]

theorem shape?_of_literalGate?_eq_none {id g : Nat} {inputs : List Nat}
    (h : c.literalGate? id = none) : c.shape? g ≠ some (.literal id, inputs) := by
  intro hs
  obtain ⟨gate, hg, hk, -⟩ := Circuit.shape?_eq_some.1 hs
  rw [Circuit.literalGate?, List.findIdx?_eq_none_iff] at h
  simpa [hk] using h gate (List.mem_of_getElem? hg)

/-- The gate of a literal that is reported for the first time goes on the stack. -/
theorem Invariant.mark (hc : c.WellFormed) (h : Invariant c met out r []) {id g : Nat}
    (hs : c.shape? g = some (.literal id, [])) (ho : r.isOpen g) :
    Invariant c (fun i => met i || i == id) out (r.mark g) [g] := by
  have hlt : g < r.satisfied.length := h.length_satisfied ▸ Circuit.lt_length_of_shape? hs
  have hopen := not_holds_of_isOpen ho
  have hholds (i : Nat) : (r.mark g).holds i = (r.holds i || i == g) := by
    rw [holds, Run.mark, List.getElem?_set]
    by_cases hi : g = i
    · subst hi; simp [hlt]
    · simp [hi, Ne.symm hi, holds]
  have hpassed : (r.mark g).passed [g] = r.passed [] := by
    funext i
    rw [passed, passed, hholds]
    by_cases hi : i = g
    · subst hi; simp [hopen]
    · simp [hi]
  have hother {i : Nat} {kind : GateKind} {inputs : List Nat}
      (hi : c.shape? i = some (kind, inputs)) (hk : ∀ id, kind ≠ .literal id) : i ≠ g := by
    rintro rfl
    rw [hs] at hi
    simp only [Option.some.injEq, Prod.mk.injEq] at hi
    exact hk id hi.1.symm
  constructor
  case length_satisfied => rw [Run.mark, List.length_set, h.length_satisfied]
  case length_fired => exact h.length_fired
  case nodup_stack => simp
  case holds_stack => simp [hholds]
  case monotone =>
    intro i hi
    rw [hholds, Bool.or_eq_true, beq_iff_eq] at hi
    rcases hi with hi | rfl
    · exact h.monotone i hi
    · obtain ⟨gate, hg, hk, hin⟩ := Circuit.shape?_eq_some.1 hs
      rw [Circuit.isMonotone_eq hg, hc.monotone_iff i gate hg, hk, hin]
      simp
  case literal =>
    intro i id' inputs hi
    have hiff : i = g ↔ id' = id := by
      constructor
      · rintro rfl
        rw [hs] at hi
        simp only [Option.some.injEq, Prod.mk.injEq, GateKind.literal.injEq] at hi
        exact hi.1.symm
      · rintro rfl
        rw [hc.literal_inputs i id' inputs hi] at hi
        exact hc.shape_inj i g (hi.trans hs.symm) (by rw [hi]; rfl)
    rw [hholds, h.literal i id' inputs hi, Bool.eq_iff_iff]
    simp [hiff]
  case any =>
    intro i inputs hi hm
    rw [hholds, hpassed, beq_eq_false_iff_ne.2 (hother hi (by simp)), Bool.or_false]
    exact h.any i inputs hi hm
  case all =>
    intro i inputs hi hm
    rw [hholds, hpassed, beq_eq_false_iff_ne.2 (hother hi (by simp)), Bool.or_false]
    exact h.all i inputs hi hm
  case count =>
    intro i inputs hi hm hn
    rw [hholds, Bool.or_eq_false_iff] at hn
    rw [hpassed]
    exact h.count i inputs hi hm hn.1
  case fired => rw [hpassed]; exact h.fired
  case nodup_pending => exact h.nodup_pending
  case mem_pending => exact h.mem_pending
  case fired_of_out => exact h.fired_of_out

/-- A run to which a literal is reported knows one literal more. -/
theorem Invariant.notify (hc : c.WellFormed) (h : Invariant c met out r []) (id : Nat)
    (span : Span) : Invariant c (fun i => met i || i == id) out (r.notify c id span) [] := by
  rw [Run.notify]
  -- what literals cover has no part in the invariant
  have h' : Invariant c met out
      { r with
        spans := fun l =>
          if l = id then some ((r.spans id).elim span fun s => s.hull span) else r.spans l } [] :=
    { h with }
  cases hl : c.literalGate? id with
  | none =>
    refine h'.congr fun g id' inputs hs => ?_
    have hne : id' ≠ id := by
      rintro rfl
      exact shape?_of_literalGate?_eq_none hl hs
    simp [hne]
  | some g =>
    have hs := literalGate?_eq_some hc hl
    dsimp only
    split
    · rename_i ho
      exact (h'.mark hc hs ho).settle hc
    · rename_i ho
      have hlt : g < r.satisfied.length := h.length_satisfied ▸ Circuit.lt_length_of_shape? hs
      have hmet : met id = true := by
        rw [← h.literal g id [] hs]
        exact holds_of_not_isOpen hlt ho
      refine h'.congr fun g' id' inputs _ => ?_
      by_cases hid : id' = id
      · subst hid; simp [hmet]
      · simp [hid]

/-- Literals reported one after the other, each with the positions that it covers. -/
def notifyAll (c : Circuit) (r : Run) (reports : List (Nat × Span)) : Run :=
  reports.foldl (fun r report => r.notify c report.1 report.2) r

theorem Invariant.notifyAll (hc : c.WellFormed) (h : Invariant c met out r [])
    (reports : List (Nat × Span)) : Invariant c (fun i => met i || reports.any (·.1 == i)) out
      (r.notifyAll c reports) [] := by
  induction reports generalizing r met with
  | nil => simpa [Run.notifyAll] using h
  | cons report reports ih =>
    refine (ih (h.notify hc report.1 report.2)).congr fun _ id _ _ => ?_
    rw [List.any_cons, Bool.or_assoc, Bool.beq_comm]

/-- Handing out the conditions that have come to hold leaves none to hand out. -/
theorem Invariant.collect (h : Invariant c met out r []) :
    Invariant c met (fun k => r.fired[k]? == some true) { r with pending := [] } [] :=
  { h with
    nodup_pending := .nil
    mem_pending := fun k => by simp
    fired_of_out := fun k hk => by simpa using hk }

theorem spans_foldl_fire (r : Run) (rules : List Nat) : (rules.foldl fire r).spans = r.spans := by
  induction rules generalizing r with
  | nil => rfl
  | cons k rules ih =>
    rw [List.foldl_cons, ih, fire]
    split <;> rfl

theorem spans_foldl_visit (c : Circuit) (r : Run) (stack outputs : List Nat) :
    (outputs.foldl (visit c) (r, stack)).1.spans = r.spans := by
  induction outputs generalizing r stack with
  | nil => rfl
  | cons g outputs ih => rw [List.foldl_cons, visit_eq, ih, visited]

/-- What literals cover changes by reports only. -/
theorem spans_settle (c : Circuit) (r : Run) (stack : List Nat) :
    (settle c r stack).spans = r.spans := by
  induction r, stack using settle.induct (c := c) with
  | case1 r => rw [settle]
  | case2 r g stack hg ih => rw [settle, hg]; exact ih
  | case3 r g stack gate hg state ih =>
    rw [settle, hg]
    refine ih.trans ?_
    rw [show state = pass c r gate stack from rfl, pass, spans_foldl_visit, spans_foldl_fire]

theorem spans_notify (c : Circuit) (r : Run) (id : Nat) (span : Span) (l : Nat) :
    (r.notify c id span).spans l =
      if l = id then some ((r.spans id).elim span fun s => s.hull span) else r.spans l := by
  rw [notify]
  split
  · rfl
  · split
    · rw [spans_settle]; rfl
    · rfl

/-- A literal covers the hull of what was reported for it. -/
theorem spans_notifyAll (c : Circuit) (r : Run) (reports : List (Nat × Span)) {l : Nat}
    {before : List Span} (h : r.spans l = Span.hullOf before) :
    (r.notifyAll c reports).spans l =
      Span.hullOf (before ++ (reports.filter (·.1 == l)).map Prod.snd) := by
  induction reports generalizing r before with
  | nil => simpa [notifyAll] using h
  | cons report reports ih =>
    obtain ⟨id, span⟩ := report
    have hstep : (r.notify c id span).spans l =
        Span.hullOf (before ++ if id = l then [span] else []) := by
      rw [spans_notify]
      by_cases hl : l = id
      · subst hl
        rw [if_pos rfl, if_pos rfl, Span.hullOf_concat, h]
      · rw [if_neg hl, if_neg (Ne.symm hl), List.append_nil, h]
    have := ih (r.notify c id span) hstep
    rw [notifyAll, List.foldl_cons]
    refine this.trans ?_
    congr 1
    rw [List.append_assoc, List.filter_cons]
    by_cases hl : id = l
    · simp [hl]
    · simp [hl]

/-! ## The values of the gates -/

/-- The value of a gate from the values of the gates before it. -/
def valueAfter (r : Run) (vs : List Bool) (gate : Gate) : Bool :=
  if gate.monotone then r.holds vs.length
  else match gate.kind with
    | .literal _ => r.holds vs.length
    | .all => gate.inputs.all fun i => vs[i]?.getD false
    | .any => gate.inputs.any fun i => vs[i]?.getD false
    | .not => !gate.inputs.any fun i => vs[i]?.getD false

/-- The value of a gate number. -/
def value (c : Circuit) (r : Run) (g : Nat) : Bool := (values c r)[g]?.getD false

theorem getElem?_values {g : Nat} {gate : Gate} (hg : c.gates[g]? = some gate) :
    (values c r)[g]? = some (valueAfter r ((values c r).take g) gate) :=
  (getElem?_foldl_concat (valueAfter r) c.gates).2 g gate hg

theorem length_take_values {g : Nat} (hg : g < c.gates.length) :
    ((values c r).take g).length = g := by
  have hlen : (values c r).length = c.gates.length :=
    (getElem?_foldl_concat (valueAfter r) c.gates).1
  rw [List.length_take, hlen]
  omega

theorem value_of_monotone {g : Nat} {gate : Gate} (hg : c.gates[g]? = some gate)
    (hm : gate.monotone) : value c r g = r.holds g := by
  rw [value, getElem?_values hg, valueAfter, if_pos hm,
    length_take_values (List.getElem?_eq_some_iff.1 hg).1]
  rfl

/-- The value of a gate that is not monotone, from the values of its inputs. -/
theorem value_of_not_monotone (hc : c.WellFormed) {g : Nat} {gate : Gate}
    (hg : c.gates[g]? = some gate) (hm : ¬ gate.monotone) :
    value c r g = match gate.kind with
      | .literal _ => r.holds g
      | .all => gate.inputs.all (value c r)
      | .any => gate.inputs.any (value c r)
      | .not => !gate.inputs.any (value c r) := by
  have hinput (i : Nat) (hi : i ∈ gate.inputs) :
      ((values c r).take g)[i]?.getD false = value c r i := by
    rw [value, List.getElem?_take_of_lt (hc.input_lt g gate hg i hi)]
  rw [value, getElem?_values hg, Option.getD_some, valueAfter, if_neg hm, all_congr_of_mem hinput,
    any_congr_of_mem hinput, length_take_values (List.getElem?_eq_some_iff.1 hg).1]

/-- With an empty stack the values of the gates fit together over the literals that were met. -/
theorem Invariant.consistent (hc : c.WellFormed) (h : Invariant c met out r []) :
    c.Consistent met (value c r) := by
  intro g gate hg
  have hlt := (List.getElem?_eq_some_iff.1 hg).1
  have hs : c.shape? g = some (gate.kind, gate.inputs) := by rw [Circuit.shape?, hg]; rfl
  have hpassed : r.passed [] = r.holds := funext fun g => by simp [passed]
  by_cases hm : gate.monotone
  · -- the inputs of a monotone gate are monotone
    obtain ⟨hk, hin⟩ := (hc.monotone_iff g gate hg).1 hm
    have hinput (i : Nat) (hi : i ∈ gate.inputs) : value c r i = r.holds i := by
      have hgi : c.gates[i]? = some _ :=
        List.getElem?_eq_getElem (Nat.lt_trans (hc.input_lt g gate hg i hi) hlt)
      exact value_of_monotone hgi (Circuit.isMonotone_eq hgi ▸ hin i hi)
    have hmg : c.isMonotone g := (Circuit.isMonotone_eq hg).trans hm
    rw [value_of_monotone hg hm, Circuit.gateValue]
    cases hkind : gate.kind with
    | literal id => exact h.literal g id _ (hkind ▸ hs)
    | all =>
      rw [h.all g _ (hkind ▸ hs) hmg, hpassed, all_congr_of_mem hinput]
    | any =>
      rw [h.any g _ (hkind ▸ hs) hmg, hpassed, any_congr_of_mem hinput]
    | not => exact absurd hkind hk
  · rw [value_of_not_monotone hc hg hm, Circuit.gateValue]
    cases hkind : gate.kind with
    | literal id => exact h.literal g id _ (hkind ▸ hs)
    | all =>
      -- a conjunction of nothing is monotone
      have hne : gate.inputs.isEmpty = false := by
        rw [List.isEmpty_eq_false_iff]
        intro he
        exact hm ((hc.monotone_iff g gate hg).2 ⟨by simp [hkind], by simp [he]⟩)
      dsimp only
      rw [hne, Bool.not_false, Bool.true_and]
    | any => rfl
    | not => rfl

/-- The value of the gate that a condition ends in is the value of the condition. -/
theorem Invariant.value_root (hc : c.WellFormed) (h : Invariant c met out r []) {reg : Register}
    {v : Literal → Bool} (hv : ∀ id l, reg.literal? id = some l → met id = v l) {f : Condition}
    {g : Nat} (hd : c.Denotes reg f g) : value c r g = f.holds v :=
  hd.value_eq (h.consistent hc) hv

/-- A condition without a not has come to hold if it holds over the literals that were met; one with
a not has not. -/
theorem Invariant.fired_eq (hc : c.WellFormed) (h : Invariant c met out r []) {reg : Register}
    {v : Literal → Bool} (hv : ∀ id l, reg.literal? id = some l → met id = v l) {f : Condition}
    {k : Nat} {rule : CircuitRule} (hk : c.rules[k]? = some rule) (hd : c.Denotes reg f rule.root) :
    r.fired[k]? = some (f.isPositive && f.holds v) := by
  have hg : c.gates[rule.root]? = some _ := List.getElem?_eq_getElem hd.lt_length
  have hm := hd.isMonotone_eq hc
  have hp : r.passed [] rule.root = r.holds rule.root := by simp [passed]
  rw [h.fired k rule hk, hp]
  cases hf : f.isPositive with
  | true =>
    rw [← h.value_root hc hv hd, value_of_monotone hg (Circuit.isMonotone_eq hg ▸ hm.trans hf),
      Bool.true_and]
  | false =>
    rw [Bool.false_and, Option.some.injEq, ← Bool.not_eq_true]
    intro hh
    rw [h.monotone _ hh, hf] at hm
    exact Bool.noConfusion hm

end Run

end QueryRules
