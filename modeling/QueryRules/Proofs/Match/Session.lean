import Mathlib.Data.List.DropRight
import QueryRules.Proofs.Match.Answers

/-!
# Reports and questions in any order

- `Circuit.ofConditions`: the circuit of any conditions, added with one register.
- `Run.session`: what a run answers if literals are reported and conditions are asked for in any
  order. `Run.invariant_after`: what the run knows after some of these events.
- `Run.session_exact`: it answers what evaluating the conditions over the reported literals gives.
-/

namespace QueryRules

namespace Circuit

/-- The circuit of conditions with the places of their rules, added one after the other, and the
register that numbers their literals. -/
def ofConditions (reg : Register) (rules : List (Condition × Nat)) : Circuit × Register :=
  rules.foldl (fun s p => s.1.withRule s.2 p.2 p.1) ({}, reg)

theorem ofConditions_spec (reg : Register) (rules : List (Condition × Nat)) :
    (ofConditions reg rules).1.WellFormed ∧
      (ofConditions reg rules).1.ListsAll (ofConditions reg rules).2 rules := by
  induction rules using List.reverseRecOn with
  | nil => exact ⟨wellFormed_empty, .nil⟩
  | append_singleton rules p ih =>
    have hconcat : ofConditions reg (rules ++ [p]) =
        (ofConditions reg rules).1.withRule (ofConditions reg rules).2 p.2 p.1 :=
      List.foldl_concat _ _ _ _
    rw [hconcat]
    exact ⟨(withRule_spec ih.1 _ _ _).1, ih.2.withRule ih.1 p.2 p.1⟩

end Circuit

namespace Run

/-! ## Events -/

/-- What happens to a run: a literal is reported with the positions that it covers, or the run is
asked for the conditions that have come to hold, among `length` positions. -/
inductive Event where
  | report (literal : Nat) (span : Span)
  | ask (length : Nat)
  deriving DecidableEq, Repr

namespace Event

/-- The run is asked. -/
def isAsk : Event → Bool
  | report .. => false
  | ask _ => true

/-- The literal with a number is reported. -/
def reports (id : Nat) : Event → Bool
  | report literal _ => literal == id
  | ask _ => false

end Event

/-- A literal of a register is reported by one of the events. -/
def reported (reg : Register) (es : List Event) (l : Literal) : Bool :=
  (reg.id? l).any fun id => es.any (·.reports id)

/-- The events up to the last question. -/
def untilAsked (es : List Event) : List Event := es.rdropWhile fun e => !e.isAsk

/-- The run after an event. -/
def step (c : Circuit) (r : Run) : Event → Run
  | .report literal span => r.notify c literal span
  | .ask length => (r.collect c length).1

/-- The answer to an event, if it is a question. -/
def answer? (c : Circuit) (r : Run) : Event → Option (List MetCondition)
  | .report .. => none
  | .ask length => some (r.collect c length).2

/-- The answers to the questions among some events. -/
def answers (c : Circuit) (r : Run) : List Event → List (List MetCondition)
  | [] => []
  | e :: es => (r.answer? c e).toList ++ answers c (r.step c e) es

/-- The run from its start on after some events. -/
def after (c : Circuit) (es : List Event) : Run := es.foldl (step c) (start c)

/-- The answers of a whole run over `length` positions; the last one is what it finishes with. -/
def session (c : Circuit) (es : List Event) (length : Nat) : List (List MetCondition) :=
  answers c (start c) es ++ [(after c es).finish c length]

theorem answers_append (c : Circuit) (r : Run) (es es' : List Event) :
    answers c r (es ++ es') = answers c r es ++ answers c (es.foldl (step c) r) es' := by
  induction es generalizing r with
  | nil => rfl
  | cons e es ih => rw [List.cons_append, answers, answers, ih, List.append_assoc]; rfl

theorem length_answers (c : Circuit) (r : Run) (es : List Event) :
    (answers c r es).length = es.countP Event.isAsk := by
  induction es generalizing r with
  | nil => rfl
  | cons e es ih =>
    rw [answers, List.length_append, ih, List.countP_cons, Nat.add_comm]
    cases e <;> rfl

@[simp] theorem untilAsked_report (es : List Event) (literal : Nat) (span : Span) :
    untilAsked (es ++ [.report literal span]) = untilAsked es :=
  List.rdropWhile_concat_pos _ _ _ rfl

@[simp] theorem untilAsked_ask (es : List Event) (length : Nat) :
    untilAsked (es ++ [.ask length]) = es ++ [.ask length] :=
  List.rdropWhile_concat_neg _ _ _ (by simp [Event.isAsk])

@[simp] theorem reported_ask (reg : Register) (es : List Event) (length : Nat) :
    reported reg (es ++ [.ask length]) = reported reg es := by
  funext l
  simp [reported, Event.reports]

/-- What was reported before the last question has been reported. -/
theorem reported_untilAsked {reg : Register} {es : List Event} {l : Literal}
    (h : reported reg (untilAsked es) l) : reported reg es l := by
  simp only [reported, Option.any_eq_true, List.any_eq_true] at h ⊢
  obtain ⟨id, hid, e, he, hr⟩ := h
  exact ⟨id, hid, e, (List.rdropWhile_prefix _ _).subset he, hr⟩

/-! ## The answers -/

variable {c : Circuit} {reg : Register} {rules : List (Condition × Nat)}

/-- After some events a run has been told just the literals that they report, and it has handed out
what had come to hold at the last question. -/
theorem invariant_after (hc : c.WellFormed) (es : List Event) :
    Invariant c (fun id => es.any (·.reports id))
      (fun k : Nat => (after c (untilAsked es)).fired[k]? == some true) (after c es) [] := by
  induction es using List.reverseRecOn with
  | nil =>
    have hout : (fun k : Nat => (after c (untilAsked [])).fired[k]? == some true) =
        fun _ => false := by
      funext k
      simp [after, untilAsked, start, List.getElem?_replicate]
    rw [hout]
    exact invariant_start c
  | append_singleton es e ih =>
    have hafter : after c (es ++ [e]) = (after c es).step c e :=
      List.foldl_concat _ _ _ _
    cases e with
    | report literal span =>
      rw [untilAsked_report, hafter]
      refine (ih.notify hc literal span).congr fun _ id _ _ => ?_
      rw [List.any_append, List.any_cons, List.any_nil, Bool.or_false, Bool.beq_comm]
      rfl
    | ask length =>
      rw [untilAsked_ask, hafter]
      refine ih.collect.congr fun _ id _ _ => ?_
      simp [Event.reports]

theorem any_reports (es : List Event) {id : Nat} {l : Literal} (hl : reg.literal? id = some l) :
    es.any (·.reports id) = reported reg es l := by
  rw [reported, Register.id?_eq_some_iff.2 hl]
  rfl

/-- The conditions without a not that are handed out are those that held at the last question. -/
theorem fired_after (hc : c.WellFormed) (hl : c.ListsAll reg rules) (es : List Event) {k : Nat}
    {p : Condition × Nat} (hp : rules[k]? = some p) :
    ((after c es).fired[k]? == some true) = (p.1.isPositive && p.1.holds (reported reg es)) := by
  rw [(invariant_after hc es).fired_of_lists hc hl (fun _ _ => any_reports es) hp]
  simp

/-- A question after some events is answered by the conditions without a not that hold over the
literals reported so far and did not at the question before. -/
theorem collect_after_perm (hc : c.WellFormed) (hl : c.ListsAll reg rules) (es : List Event)
    (length : Nat) : (((after c es).collect c length).2.map MetCondition.rule).Perm
      ((rules.filter fun p => p.1.isPositive && (p.1.holds (reported reg es) &&
        !p.1.holds (reported reg (untilAsked es)))).map Prod.snd) :=
  (invariant_after hc es).collect_perm hc hl (fun _ _ => any_reports es)
    (fun _ _ hp => fired_after hc hl (untilAsked es) hp)
    (fun _ _ _ hk hp => (hl.lists hk hp).1)

/-- The last answer has the conditions that hold over all the reported literals, but for those
without a not that held at the last question. -/
theorem finish_after_perm (hc : c.WellFormed) (hl : c.ListsAll reg rules) (es : List Event)
    (length : Nat) : (((after c es).finish c length).map MetCondition.rule).Perm
      ((rules.filter fun p => p.1.holds (reported reg es) &&
        !(p.1.isPositive && p.1.holds (reported reg (untilAsked es)))).map Prod.snd) := by
  rw [(invariant_after hc es).finish_eq (g := Prod.snd) hc hl (fun _ _ => any_reports es)
    (fun _ _ _ hk hp => (hl.lists hk hp).1)]
  refine ((collect_after_perm hc hl es length).append_right _).trans ?_
  -- those with a not, and those without one that have come to hold since
  have hrest (p : Condition × Nat) : (!p.1.isPositive && p.1.holds (reported reg es)) =
      ((p.1.holds (reported reg es) &&
          !(p.1.isPositive && p.1.holds (reported reg (untilAsked es)))) &&
        !(p.1.isPositive && (p.1.holds (reported reg es) &&
          !p.1.holds (reported reg (untilAsked es))))) := by
    cases p.1.isPositive <;> simp
  rw [List.filter_congr fun p _ => hrest p, ← List.map_append]
  refine (filter_append_filter_perm (fun p hp => ?_) rules).map Prod.snd
  simp only [Bool.and_eq_true, Bool.not_eq_true'] at hp ⊢
  exact ⟨hp.2.1, by rw [hp.2.2, Bool.and_false]⟩

/-- The answers to the questions among some events have together the conditions without a not that
hold at the last question. -/
theorem answers_perm (hc : c.WellFormed) (hl : c.ListsAll reg rules) (es : List Event) :
    ((answers c (start c) es).flatten.map MetCondition.rule).Perm
      ((rules.filter fun p => p.1.isPositive && p.1.holds (reported reg (untilAsked es))).map
        Prod.snd) := by
  induction es using List.reverseRecOn with
  | nil =>
    have hnone (p : Condition × Nat) :
        (p.1.isPositive && p.1.holds (reported reg (untilAsked []))) = false := by
      have hfalse : reported reg (untilAsked []) = fun _ => false := by
        funext l
        simp [reported, untilAsked]
      cases hp : p.1.isPositive with
      | false => rfl
      | true => rw [hfalse, Formula.holds_false hp]; rfl
    rw [List.filter_eq_nil_iff.2 fun p _ => by rw [hnone]; exact Bool.false_ne_true]
    exact .nil
  | append_singleton es e ih =>
    rw [answers_append]
    cases e with
    | report literal span =>
      rw [untilAsked_report]
      simpa [answers, answer?] using ih
    | ask length =>
      have hanswers : (answers c (start c) es ++ answers c (after c es) [.ask length]).flatten =
          (answers c (start c) es).flatten ++ ((after c es).collect c length).2 := by
        simp [answers, answer?]
      have hnew (p : Condition × Nat) : (p.1.isPositive && (p.1.holds (reported reg es) &&
            !p.1.holds (reported reg (untilAsked es)))) =
          ((p.1.isPositive && p.1.holds (reported reg es)) &&
            !(p.1.isPositive && p.1.holds (reported reg (untilAsked es)))) := by
        cases p.1.isPositive <;> simp
      rw [untilAsked_ask, reported_ask]
      refine (List.Perm.of_eq (congrArg _ hanswers)).trans ?_
      rw [List.map_append]
      refine (ih.append (collect_after_perm hc hl es length)).trans ?_
      rw [List.filter_congr fun p _ => hnew p, ← List.map_append]
      refine (filter_append_filter_perm (fun p hp => ?_) rules).map Prod.snd
      rw [Bool.and_eq_true] at hp ⊢
      exact ⟨hp.1, Formula.holds_mono (fun _ => reported_untilAsked) hp.1 hp.2⟩

/-- A circuit agrees with evaluating its conditions, for any conditions and any reports and
questions in any order. Over the whole run each condition is answered once if it holds over the
literals that were reported, and otherwise never. A condition without a not is in the first answer
after the report with which it comes to hold: in the answer to a question if it holds by then and
did not at the question before, and else in the last answer. One with a not is in the last answer
only. -/
theorem session_exact (reg : Register) (rules : List (Condition × Nat)) (es : List Event)
    (length : Nat) :
    let c := (Circuit.ofConditions reg rules).1
    let reg' := (Circuit.ofConditions reg rules).2
    ((session c es length).flatten.map MetCondition.rule).Perm
      ((rules.filter fun p => p.1.holds (reported reg' es)).map Prod.snd) ∧
    (∀ earlier n later, ∃ answer,
      (session c (earlier ++ .ask n :: later) length)[earlier.countP Event.isAsk]? = some answer ∧
        (answer.map MetCondition.rule).Perm ((rules.filter fun p => p.1.isPositive &&
          (p.1.holds (reported reg' earlier) &&
            !p.1.holds (reported reg' (untilAsked earlier)))).map Prod.snd)) ∧
    ∃ answer, (session c es length).getLast? = some answer ∧
      (answer.map MetCondition.rule).Perm ((rules.filter fun p =>
        p.1.holds (reported reg' es) &&
          !(p.1.isPositive && p.1.holds (reported reg' (untilAsked es)))).map Prod.snd) := by
  intro c reg'
  obtain ⟨hc, hl⟩ := Circuit.ofConditions_spec reg rules
  refine ⟨?_, ?_, ?_⟩
  · rw [session, List.flatten_append, List.map_append, List.flatten_singleton]
    refine ((answers_perm hc hl es).append (finish_after_perm hc hl es length)).trans ?_
    rw [← List.map_append]
    refine (filter_append_filter_perm (fun p hp => ?_) rules).map Prod.snd
    rw [Bool.and_eq_true] at hp
    exact Formula.holds_mono (fun _ => reported_untilAsked) hp.1 hp.2
  · intro earlier n later
    refine ⟨_, ?_, collect_after_perm hc hl earlier n⟩
    rw [session, answers_append, ← length_answers c (start c) earlier, List.append_assoc,
      List.getElem?_append_right (Nat.le_refl _), Nat.sub_self]
    rfl
  · exact ⟨_, List.getLast?_concat, finish_after_perm hc hl es length⟩

/-- The condition with a not waits for the last answer, by when it does not hold any more. -/
example :
    let big : Condition := .literal { value := "big" }
    let small : Condition := .literal { value := "small" }
    let c := (Circuit.ofConditions {} [(.all [big, .not small], 0), (.any [small, big], 1)]).1
    (session c [.report 0 ⟨0, 1⟩, .ask 2, .report 1 ⟨1, 2⟩] 2).map (·.map MetCondition.rule) =
      [[1], []] := by decide +kernel

end Run

end QueryRules
