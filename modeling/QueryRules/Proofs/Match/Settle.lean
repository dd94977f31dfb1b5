import QueryRules.Match.Run
import QueryRules.Proofs.Match.Meaning

/-!
# The invariant of a run

A gate of a run that holds is either on the stack or has been passed on to the gates that it feeds
(`Run.passed`). `Run.Invariant` says what the run knows in these terms: an open conjunction counts
its inputs that have been passed on, and a condition has come to hold if its gate has been.

- `visit_eq`, `foldl_visit_eq`: what a visit changes, and several visits of different gates.
- `PassedOn`: what passing on a gate changes.
- `Invariant.pass`: the invariant is kept when the last gate on the stack is passed on, and so by
  `settle` (`Invariant.settle`).
-/

namespace QueryRules.Run

/-- The gate holds and has been passed on. -/
def passed (r : Run) (stack : List Nat) (g : Nat) : Bool := r.holds g && decide (g ∉ stack)

/-- What a run over a circuit knows if just the literals of `met` were reported, the gates on the
stack wait to be passed on, and the conditions of `out` have been handed out. -/
structure Invariant (c : Circuit) (met out : Nat → Bool) (r : Run) (stack : List Nat) : Prop where
  length_satisfied : r.satisfied.length = c.gates.length
  length_fired : r.fired.length = c.rules.length
  nodup_stack : stack.Nodup
  holds_stack : ∀ g ∈ stack, r.holds g
  monotone : ∀ g, r.holds g → c.isMonotone g
  literal : ∀ g id inputs, c.shape? g = some (.literal id, inputs) → r.holds g = met id
  any : ∀ g inputs, c.shape? g = some (.any, inputs) → c.isMonotone g →
    r.holds g = inputs.any (r.passed stack)
  all : ∀ g inputs, c.shape? g = some (.all, inputs) → c.isMonotone g →
    r.holds g = (!inputs.isEmpty && inputs.all (r.passed stack))
  /-- An open conjunction counts its inputs that have been passed on. -/
  count : ∀ g inputs, c.shape? g = some (.all, inputs) → c.isMonotone g → r.holds g = false →
    r.counts[g]? = some (inputs.countP (r.passed stack))
  fired : ∀ (k : Nat) (rule : CircuitRule), c.rules[k]? = some rule →
    r.fired[k]? = some (r.passed stack rule.root)
  nodup_pending : r.pending.Nodup
  mem_pending : ∀ k, k ∈ r.pending ↔ r.fired[k]? = some true ∧ out k = false
  fired_of_out : ∀ k, out k → r.fired[k]? = some true

variable {c : Circuit} {met out : Nat → Bool} {r : Run} {stack : List Nat}

theorem lt_length_of_holds {g : Nat} (h : r.holds g) : g < r.satisfied.length := by
  rcases Nat.lt_or_ge g r.satisfied.length with hg | hg
  · exact hg
  · rw [holds, List.getElem?_eq_none hg] at h
    simp at h

/-- A gate is open if it exists and does not hold. -/
theorem isOpen_eq {g : Nat} (hg : g < r.satisfied.length) : r.isOpen g = !r.holds g := by
  rw [isOpen, holds, List.getElem?_eq_getElem hg]
  cases r.satisfied[g] <;> rfl

theorem holds_of_not_isOpen {g : Nat} (hg : g < r.satisfied.length) (h : ¬ r.isOpen g) :
    r.holds g := by
  rw [isOpen_eq hg] at h
  simpa using h

theorem not_holds_of_isOpen {g : Nat} (h : r.isOpen g) : r.holds g = false := by
  rw [isOpen, beq_iff_eq] at h
  rw [holds, h]
  rfl

/-! ## Conditions that come to hold -/

theorem getElem?_fired_fire (r : Run) (j k : Nat) : (r.fire j).fired[k]? =
    if k = j ∧ r.fired[k]? = some false then some true else r.fired[k]? := by
  rw [fire]
  split
  · rename_i hf
    obtain ⟨hlt, -⟩ := List.getElem?_eq_some_iff.1 hf
    rw [List.getElem?_set]
    by_cases hk : j = k
    · subst hk; simp [hlt]
    · simp [hk, Ne.symm hk]
  · rename_i hf
    rw [if_neg]
    rintro ⟨rfl, hf'⟩
    exact hf hf'

/-- Conditions that differ from one another come to hold each once, in their order. -/
theorem foldl_fire_eq {rules : List Nat} (h : rules.Nodup) (r : Run) :
    (rules.foldl fire r).satisfied = r.satisfied ∧ (rules.foldl fire r).counts = r.counts ∧
      (rules.foldl fire r).fired.length = r.fired.length ∧
      (∀ k, (rules.foldl fire r).fired[k]? =
        if k ∈ rules ∧ r.fired[k]? = some false then some true else r.fired[k]?) ∧
      (rules.foldl fire r).pending =
        r.pending ++ rules.filter fun k => r.fired[k]? = some false := by
  induction rules generalizing r with
  | nil => simp
  | cons j rules ih =>
    obtain ⟨hj, hs⟩ := List.nodup_cons.1 h
    obtain ⟨hsat, hcnt, hlen, hfired, hpend⟩ := ih hs (r.fire j)
    have hother {k : Nat} (hk : k ∈ rules) : (r.fire j).fired[k]? = r.fired[k]? := by
      rw [getElem?_fired_fire, if_neg]
      rintro ⟨rfl, -⟩
      exact hj hk
    have hrest : (rules.filter fun k => (r.fire j).fired[k]? = some false) =
        rules.filter fun k => r.fired[k]? = some false :=
      List.filter_congr fun k hk => by rw [hother hk]
    rw [List.foldl_cons]
    refine ⟨?_, ?_, ?_, fun k => ?_, ?_⟩
    · rw [hsat, fire]; split <;> rfl
    · rw [hcnt, fire]; split <;> rfl
    · rw [hlen, fire]; split <;> simp
    · rw [hfired, getElem?_fired_fire]
      by_cases hk : k = j
      · subst hk
        by_cases hf : r.fired[k]? = some false <;> simp [hf, hj]
      · simp [hk]
    · rw [hpend, hrest, fire, List.filter_cons]
      split <;> rename_i hf <;> simp [hf]

/-! ## Visits -/

/-- A visit makes the gate hold. -/
def gains (c : Circuit) (r : Run) (g : Nat) : Bool :=
  match c.shape? g with
  | some (.all, inputs) =>
    c.isMonotone g && r.isOpen g && r.counts[g]?.getD 0 + 1 == inputs.length
  | some (.any, _) => c.isMonotone g && r.isOpen g
  | _ => false

/-- A visit is counted by the gate. -/
def isCounted (c : Circuit) (r : Run) (g : Nat) : Bool :=
  match c.shape? g with
  | some (.all, _) => c.isMonotone g && r.isOpen g
  | _ => false

/-- What a visit changes: the count of the gate and whether it holds. -/
def visited (c : Circuit) (r : Run) (g : Nat) : Run :=
  { r with
    satisfied := if gains c r g then r.satisfied.set g true else r.satisfied
    counts := if isCounted c r g then r.counts.set g (r.counts[g]?.getD 0 + 1) else r.counts }

theorem visit_eq (c : Circuit) (r : Run) (stack : List Nat) (g : Nat) :
    visit c (r, stack) g = (visited c r g, if gains c r g then g :: stack else stack) := by
  rw [visit]
  cases hg : c.gates[g]? with
  | none =>
    have hs : c.shape? g = none := by rw [Circuit.shape?, hg]; rfl
    simp [visited, gains, isCounted, hs]
  | some gate =>
    have hs : c.shape? g = some (gate.kind, gate.inputs) := by rw [Circuit.shape?, hg]; rfl
    have hm := Circuit.isMonotone_eq hg
    cases hk : gate.kind <;> cases hmono : gate.monotone <;> cases ho : r.isOpen g <;>
      simp only [visited, gains, isCounted, hs, hm, hk, hmono, ho, mark] <;> simp
    -- an open conjunction: the visit is counted, and the last one makes it hold
    split <;> simp [*]

theorem gains_congr {r' : Run} {g : Nat} (hs : r'.satisfied[g]? = r.satisfied[g]?)
    (hn : r'.counts[g]? = r.counts[g]?) :
    gains c r' g = gains c r g ∧ isCounted c r' g = isCounted c r g := by
  simp [gains, isCounted, isOpen, hs, hn]

theorem getElem?_satisfied_visited (c : Circuit) (r : Run) (j g : Nat) :
    (visited c r j).satisfied[g]? =
      if g = j ∧ gains c r g then (r.satisfied[g]?).map fun _ => true else r.satisfied[g]? := by
  by_cases hg : g = j
  · subst hg
    simp only [visited, true_and]
    split
    · rw [List.getElem?_set_self']; rfl
    · rfl
  · simp only [visited, hg, false_and, if_false]
    split
    · rw [List.getElem?_set_ne (Ne.symm hg)]
    · rfl

theorem getElem?_counts_visited (c : Circuit) (r : Run) (j g : Nat) :
    (visited c r j).counts[g]? =
      if g = j ∧ isCounted c r g then (r.counts[g]?).map (· + 1) else r.counts[g]? := by
  by_cases hg : g = j
  · subst hg
    simp only [visited, true_and]
    split
    · rw [List.getElem?_set_self']
      cases r.counts[g]? <;> rfl
    · rfl
  · simp only [visited, hg, false_and, if_false]
    split
    · rw [List.getElem?_set_ne (Ne.symm hg)]
    · rfl

/-- Gates that differ from one another are visited independently of one another. -/
theorem foldl_visit_eq {outputs : List Nat} (h : outputs.Nodup) (r : Run) (stack : List Nat) :
    ∃ r', outputs.foldl (visit c) (r, stack) =
        (r', (outputs.filter (gains c r)).reverse ++ stack) ∧
      (∀ g, r'.satisfied[g]? = if g ∈ outputs ∧ gains c r g then (r.satisfied[g]?).map fun _ => true
        else r.satisfied[g]?) ∧
      (∀ g, r'.counts[g]? = if g ∈ outputs ∧ isCounted c r g then (r.counts[g]?).map (· + 1)
        else r.counts[g]?) ∧
      r'.satisfied.length = r.satisfied.length ∧ r'.fired = r.fired ∧ r'.pending = r.pending := by
  induction outputs generalizing r stack with
  | nil => exact ⟨r, rfl, by simp, by simp, rfl, rfl, rfl⟩
  | cons j outputs ih =>
    obtain ⟨hj, hs⟩ := List.nodup_cons.1 h
    rw [List.foldl_cons, visit_eq]
    obtain ⟨r', he, hsat, hcnt, hlen, hf, hp⟩ :=
      ih hs (visited c r j) (if gains c r j then j :: stack else stack)
    have hgains {g : Nat} (hg : g ≠ j) :
        gains c (visited c r j) g = gains c r g ∧
          isCounted c (visited c r j) g = isCounted c r g :=
      gains_congr (by rw [getElem?_satisfied_visited]; simp [hg])
        (by rw [getElem?_counts_visited]; simp [hg])
    have hfilter : outputs.filter (gains c (visited c r j)) = outputs.filter (gains c r) :=
      List.filter_congr fun g hg => (hgains fun e => hj (e ▸ hg)).1
    refine ⟨r', ?_, fun g => ?_, fun g => ?_, ?_, hf, hp⟩
    · rw [he, hfilter, List.filter_cons]
      split <;> simp
    · rw [hsat, getElem?_satisfied_visited]
      by_cases hg : g = j
      · subst hg; simp [hj]
      · simp [hg, (hgains hg).1]
    · rw [hcnt, getElem?_counts_visited]
      by_cases hg : g = j
      · subst hg; simp [hj]
      · simp [hg, (hgains hg).2]
    · rw [hlen, visited]
      split <;> simp

/-! ## The start -/

theorem holds_start (c : Circuit) (g : Nat) : (start c).holds g = false := by
  rw [holds, start, List.getElem?_replicate]
  split <;> rfl

theorem passed_start (c : Circuit) (stack : List Nat) :
    (start c).passed stack = fun _ => false := by
  funext g
  rw [passed, holds_start, Bool.false_and]

theorem invariant_start (c : Circuit) :
    Invariant c (fun _ => false) (fun _ => false) (start c) [] := by
  constructor
  case length_satisfied => simp [start]
  case length_fired => simp [start]
  case nodup_stack => exact .nil
  case holds_stack => simp
  case monotone => simp [holds_start]
  case literal => simp [holds_start]
  case any => simp [holds_start, passed_start]
  case all =>
    intro g inputs _ _
    cases inputs <;> simp [holds_start, passed_start]
  case count =>
    intro g inputs hg _ _
    rw [passed_start]
    simp [start, Circuit.lt_length_of_shape? hg]
  case fired =>
    intro k rule hk
    rw [passed_start]
    simp [start, (List.getElem?_eq_some_iff.1 hk).1]
  case nodup_pending => exact .nil
  case mem_pending => simp [start, List.getElem?_replicate]
  case fired_of_out => simp

/-! ## Passing on a gate -/

/-- The gate `g` is an input of the gate `i`. -/
def feeds (c : Circuit) (g i : Nat) : Bool :=
  ((c.shape? i).map fun s => decide (g ∈ s.2)).getD false

theorem feeds_eq {g i : Nat} {kind : GateKind} {inputs : List Nat}
    (h : c.shape? i = some (kind, inputs)) : feeds c g i = decide (g ∈ inputs) := by
  rw [feeds, h]
  rfl

theorem not_holds_of_gains {g : Nat} (h : gains c r g) :
    r.holds g = false ∧ g < r.satisfied.length ∧ c.isMonotone g := by
  have ho : r.isOpen g ∧ c.isMonotone g := by
    rw [gains] at h
    split at h <;> simp_all
  refine ⟨not_holds_of_isOpen ho.1, ?_, ho.2⟩
  have hs := ho.1
  rw [isOpen, beq_iff_eq] at hs
  exact (List.getElem?_eq_some_iff.1 hs).1

/-- What changes when the gate `g` is passed on from the top of the stack. -/
structure PassedOn (c : Circuit) (r : Run) (stack : List Nat) (g : Nat) (gate : Gate) (r' : Run)
    (stack' : List Nat) : Prop where
  length_satisfied : r'.satisfied.length = r.satisfied.length
  length_fired : r'.fired.length = r.fired.length
  holds : ∀ i, r'.holds i = (r.holds i || (feeds c g i && gains c r i))
  counts : ∀ i, r'.counts[i]? =
    if feeds c g i && isCounted c r i then (r.counts[i]?).map (· + 1) else r.counts[i]?
  mem_stack : ∀ i, i ∈ stack' ↔ (feeds c g i ∧ gains c r i) ∨ i ∈ stack
  nodup_stack : stack'.Nodup
  fired : ∀ k, r'.fired[k]? =
    if k ∈ gate.rules ∧ r.fired[k]? = some false then some true else r.fired[k]?
  pending : r'.pending = r.pending ++ gate.rules.filter fun k => r.fired[k]? = some false

theorem passedOn_pass (hc : c.WellFormed) {g : Nat} {gate : Gate} (hg : c.gates[g]? = some gate)
    (hs : stack.Nodup) (hh : ∀ i ∈ stack, r.holds i) :
    PassedOn c r stack g gate (pass c r gate stack).1 (pass c r gate stack).2 := by
  obtain ⟨hsat₀, hcnt₀, hlen₀, hfired₀, hpend₀⟩ := foldl_fire_eq (hc.nodup_rules g gate hg) r
  obtain ⟨r', he, hsat, hcnt, hlen, hfired, hpend⟩ :=
    foldl_visit_eq (c := c) (hc.nodup_outputs g gate hg) (gate.rules.foldl fire r) stack
  have hgains (i : Nat) : gains c (gate.rules.foldl fire r) i = gains c r i ∧
      isCounted c (gate.rules.foldl fire r) i = isCounted c r i :=
    gains_congr (by rw [hsat₀]) (by rw [hcnt₀])
  have hfeeds (i : Nat) : i ∈ gate.outputs ↔ feeds c g i := by
    rw [hc.mem_outputs g gate hg, feeds, Circuit.shape?]
    cases c.gates[i]? <;> simp
  simp only [(hgains _).1, (hgains _).2, hsat₀, hcnt₀, hfeeds] at hsat hcnt
  rw [pass, he, List.filter_congr fun i _ => (hgains i).1]
  constructor
  case length_satisfied => rw [hlen, hsat₀]
  case length_fired => rw [hfired, hlen₀]
  case holds =>
    intro i
    rw [Run.holds, hsat, Run.holds]
    by_cases hi : feeds c g i ∧ gains c r i
    · have hlt := (not_holds_of_gains hi.2).2.1
      simp [hi, hlt]
    · rw [if_neg hi, show (feeds c g i && gains c r i) = false by simpa using hi, Bool.or_false]
  case counts => simpa only [Bool.and_eq_true] using hcnt
  case mem_stack => simp [hfeeds]
  case nodup_stack =>
    have hn : (gate.outputs.filter (gains c r)).reverse.Nodup :=
      (List.reverse_perm _).nodup_iff.2 ((hc.nodup_outputs g gate hg).filter _)
    refine List.nodup_append.2 ⟨hn, hs, fun i hi j hj => ?_⟩
    rintro rfl
    rw [List.mem_reverse, List.mem_filter] at hi
    exact absurd (hh i hj) (by simp [(not_holds_of_gains hi.2).1])
  case fired => intro k; rw [hfired, hfired₀]
  case pending => rw [hpend, hpend₀]

/-- The gate on top of the stack has not been passed on. -/
theorem passed_top (r : Run) (stack : List Nat) (g : Nat) : r.passed (g :: stack) g = false := by
  simp [passed]

/-- Exactly the gate on top of the stack is passed on. -/
theorem PassedOn.passed_eq {g : Nat} {gate : Gate} {r' : Run} {stack' : List Nat}
    (h : PassedOn c r stack g gate r' stack') (hg : r.holds g) (hs : g ∉ stack) :
    r'.passed stack' = fun i => r.passed (g :: stack) i || i == g := by
  funext i
  rw [passed, h.holds, passed]
  simp only [h.mem_stack, List.mem_cons]
  by_cases hi : feeds c g i ∧ gains c r i
  · have ho := (not_holds_of_gains hi.2).1
    have hne : i ≠ g := by
      rintro rfl
      exact absurd ho (by simp [hg])
    simp [hi, ho, hne]
  · rw [show (feeds c g i && gains c r i) = false by simpa using hi, Bool.or_false]
    by_cases hig : i = g
    · subst hig
      simp [hg, hs, hi]
    · simp [hi, hig]

/-- One more gate passed on counts once if it stands among the inputs. -/
theorem countP_or_eq {inputs : List Nat} (hn : inputs.Nodup) {p : Nat → Bool} {g : Nat}
    (hp : p g = false) :
    inputs.countP (fun i => p i || i == g) = inputs.countP p + if g ∈ inputs then 1 else 0 := by
  induction inputs with
  | nil => rfl
  | cons i inputs ih =>
    obtain ⟨hi, hs⟩ := List.nodup_cons.1 hn
    rw [List.countP_cons, List.countP_cons, ih hs]
    by_cases hg : i = g
    · subst hg
      simp [hp, hi]
    · have hm : g ∈ i :: inputs ↔ g ∈ inputs := by simp [Ne.symm hg]
      simp only [hm, beq_eq_false_iff_ne.2 hg, Bool.or_false]
      omega

theorem any_or_eq {inputs : List Nat} {p : Nat → Bool} {g : Nat} :
    inputs.any (fun i => p i || i == g) = (inputs.any p || decide (g ∈ inputs)) := by
  induction inputs with
  | nil => rfl
  | cons i inputs ih =>
    rw [List.any_cons, List.any_cons, ih, Bool.eq_iff_iff]
    simp only [Bool.or_eq_true, beq_iff_eq, decide_eq_true_eq, List.mem_cons, @eq_comm _ g i]
    tauto

theorem all_eq_countP {inputs : List Nat} {p : Nat → Bool} :
    inputs.all p = decide (inputs.countP p = inputs.length) := by
  rw [Bool.eq_iff_iff, List.all_eq_true, decide_eq_true_eq, List.countP_eq_length]

section Pass

variable {g : Nat} {gate : Gate} {r' : Run} {stack' : List Nat}

/-- The inputs of a conjunction that have been passed on, after one more gate has been. -/
theorem Invariant.countP_passed (hc : c.WellFormed) (h : Invariant c met out r (g :: stack))
    (hp : PassedOn c r stack g gate r' stack') {i : Nat} {kind : GateKind} {inputs : List Nat}
    (hs : c.shape? i = some (kind, inputs)) :
    inputs.countP (r'.passed stack') =
      inputs.countP (r.passed (g :: stack)) + if g ∈ inputs then 1 else 0 := by
  obtain ⟨t, ht, -, rfl⟩ := Circuit.shape?_eq_some.1 hs
  rw [hp.passed_eq (h.holds_stack g (by simp)) (List.nodup_cons.1 h.nodup_stack).1]
  exact countP_or_eq (nodup_of_ascending (hc.ascending_inputs i t ht)) (passed_top r stack g)

theorem Invariant.isOpen_eq (h : Invariant c met out r stack) {i : Nat}
    {s : GateKind × List Nat} (hs : c.shape? i = some s) : r.isOpen i = !r.holds i :=
  Run.isOpen_eq (h.length_satisfied ▸ Circuit.lt_length_of_shape? hs)

/-- A disjunction holds as soon as one of its inputs is passed on. -/
theorem Invariant.any_pass (h : Invariant c met out r (g :: stack))
    (hp : PassedOn c r stack g gate r' stack') {i : Nat} {inputs : List Nat}
    (hs : c.shape? i = some (.any, inputs)) (hm : c.isMonotone i) :
    r'.holds i = inputs.any (r'.passed stack') := by
  rw [hp.passed_eq (h.holds_stack g (by simp)) (List.nodup_cons.1 h.nodup_stack).1, any_or_eq,
    ← h.any i inputs hs hm, hp.holds, feeds_eq hs]
  simp only [gains, hs, hm, h.isOpen_eq hs, Bool.true_and]
  cases r.holds i <;> simp

/-- A conjunction holds as soon as the last of its inputs is passed on. -/
theorem Invariant.all_pass (hc : c.WellFormed) (h : Invariant c met out r (g :: stack))
    (hp : PassedOn c r stack g gate r' stack') {i : Nat} {inputs : List Nat}
    (hs : c.shape? i = some (.all, inputs)) (hm : c.isMonotone i) :
    r'.holds i = (!inputs.isEmpty && inputs.all (r'.passed stack')) := by
  have hold := h.all i inputs hs hm
  have hcount := h.count i inputs hs hm
  have hcount' := h.countP_passed hc hp hs
  rw [all_eq_countP] at hold ⊢
  rw [hp.holds, feeds_eq hs]
  simp only [gains, hs, hm, h.isOpen_eq hs, Bool.true_and]
  cases hi : r.holds i with
  | true =>
    -- all inputs have been passed on before, so the top of the stack is none of them
    rw [hi] at hold
    simp only [Bool.true_eq, Bool.and_eq_true, decide_eq_true_eq] at hold
    have hle := List.countP_le_length (p := r'.passed stack') (l := inputs)
    have heq : inputs.countP (r'.passed stack') = inputs.length := by omega
    rw [hold.1, heq]
    simp
  | false =>
    rw [hi] at hold
    rw [hcount hi, hcount']
    by_cases hgi : g ∈ inputs
    · have hne : inputs.isEmpty = false := by
        rw [List.isEmpty_eq_false_iff]
        rintro rfl
        simp at hgi
      rw [hne, if_pos hgi, Bool.eq_iff_iff]
      simp [hgi]
    · simpa [hgi] using hold

/-- A conjunction that stays open counts the gate that is passed on. -/
theorem Invariant.count_pass (hc : c.WellFormed) (h : Invariant c met out r (g :: stack))
    (hp : PassedOn c r stack g gate r' stack') {i : Nat} {inputs : List Nat}
    (hs : c.shape? i = some (.all, inputs)) (hm : c.isMonotone i) (hi : r'.holds i = false) :
    r'.counts[i]? = some (inputs.countP (r'.passed stack')) := by
  have hi' : r.holds i = false := by
    rw [hp.holds, Bool.or_eq_false_iff] at hi
    exact hi.1
  rw [hp.counts, h.count i inputs hs hm hi', h.countP_passed hc hp hs, feeds_eq hs]
  simp only [isCounted, hs, hm, h.isOpen_eq hs, hi']
  by_cases hgi : g ∈ inputs <;> simp [hgi]

/-- The conditions that end in the gate come to hold when it is passed on. -/
theorem Invariant.fired_pass (hc : c.WellFormed) (h : Invariant c met out r (g :: stack))
    (hg : c.gates[g]? = some gate) (hp : PassedOn c r stack g gate r' stack') {k : Nat}
    {rule : CircuitRule} (hk : c.rules[k]? = some rule) :
    r'.fired[k]? = some (r'.passed stack' rule.root) := by
  rw [hp.passed_eq (h.holds_stack g (by simp)) (List.nodup_cons.1 h.nodup_stack).1, hp.fired,
    h.fired k rule hk]
  have hin : k ∈ gate.rules ↔ rule.root = g := by
    rw [hc.mem_rules g gate hg, hk]
    simp
  by_cases hroot : rule.root = g
  · simp [hin, hroot, passed_top]
  · simp [hin, hroot]

/-- Passing on the gate on top of the stack keeps the invariant. -/
theorem Invariant.pass (hc : c.WellFormed) (h : Invariant c met out r (g :: stack))
    (hg : c.gates[g]? = some gate) :
    Invariant c met out (pass c r gate stack).1 (pass c r gate stack).2 := by
  have hstack (i : Nat) (hi : i ∈ stack) : r.holds i :=
    h.holds_stack i (List.mem_cons_of_mem _ hi)
  have hp := passedOn_pass hc hg (List.nodup_cons.1 h.nodup_stack).2 hstack
  constructor
  case length_satisfied => rw [hp.length_satisfied, h.length_satisfied]
  case length_fired => rw [hp.length_fired, h.length_fired]
  case nodup_stack => exact hp.nodup_stack
  case holds_stack =>
    intro i hi
    rw [hp.holds]
    rcases (hp.mem_stack i).1 hi with ⟨h1, h2⟩ | hi
    · simp [h1, h2]
    · simp [hstack i hi]
  case monotone =>
    intro i hi
    rw [hp.holds, Bool.or_eq_true, Bool.and_eq_true] at hi
    rcases hi with hi | ⟨-, hi⟩
    · exact h.monotone i hi
    · exact (not_holds_of_gains hi).2.2
  case literal =>
    intro i id inputs hs
    have hno : gains c r i = false := by simp [gains, hs]
    rw [hp.holds, hno, Bool.and_false, Bool.or_false, h.literal i id inputs hs]
  case any => exact fun i inputs hs hm => h.any_pass hp hs hm
  case all => exact fun i inputs hs hm => h.all_pass hc hp hs hm
  case count => exact fun i inputs hs hm hi => h.count_pass hc hp hs hm hi
  case fired => exact fun k rule hk => h.fired_pass hc hg hp hk
  case nodup_pending =>
    rw [hp.pending]
    refine List.nodup_append.2 ⟨h.nodup_pending, (hc.nodup_rules g gate hg).filter _,
      fun k hk j hj => ?_⟩
    rintro rfl
    have hf := (List.mem_filter.1 hj).2
    simp [((h.mem_pending k).1 hk).1] at hf
  case mem_pending =>
    intro k
    rw [hp.pending, hp.fired, List.mem_append, h.mem_pending, List.mem_filter, decide_eq_true_eq]
    constructor
    · rintro (⟨h1, h2⟩ | ⟨h1, h2⟩)
      · exact ⟨by simp [h1], h2⟩
      · refine ⟨by simp [h1, h2], ?_⟩
        rw [← Bool.not_eq_true]
        intro ho
        simp [h.fired_of_out k ho] at h2
    · rintro ⟨h1, h2⟩
      split at h1
      · exact .inr ‹_›
      · exact .inl ⟨h1, h2⟩
  case fired_of_out =>
    intro k hk
    rw [hp.fired, h.fired_of_out k hk]
    simp

end Pass

/-- Settling keeps the invariant and empties the stack. -/
theorem Invariant.settle (hc : c.WellFormed) (h : Invariant c met out r stack) :
    Invariant c met out (settle c r stack) [] := by
  induction r, stack using settle.induct (c := c) with
  | case1 r => rwa [Run.settle]
  | case2 r g stack hg ih =>
    -- a gate on the stack exists
    have hlt := lt_length_of_holds (h.holds_stack g (by simp))
    rw [h.length_satisfied] at hlt
    simp [List.getElem?_eq_getElem hlt] at hg
  | case3 r g stack gate hg state ih =>
    rw [Run.settle, hg]
    exact ih (h.pass hc hg)

end QueryRules.Run
