import QueryRules.Proofs.Match.Reported
import QueryRules.Request.Engine

/-!
# The actions of a request

The sequences of a request are scanned one after the other, and each scan is told which rules with a
condition have been reported.

- `Engine.actionsFrom_eq`: so a sequence has the actions that it has alone, without those that repeat
  a rule of an earlier sequence.
- `Engine.actions_once`: a rule with a condition is left with the first sequence in which its
  condition holds, and phrases are not affected.
-/

namespace QueryRules

section

variable {α β : Type}

/-- What every element gives together with the elements before it, one element more in front. -/
theorem flatMap_zipIdx_cons (g : List α → α → List β) (earlier : List α) (x : α) (xs : List α) :
    (((x :: xs).zipIdx earlier.length).flatMap fun (y, i) => g ((earlier ++ x :: xs).take i) y) =
      g earlier x ++ ((xs.zipIdx (earlier ++ [x]).length).flatMap fun (y, i) =>
        g ((earlier ++ [x] ++ xs).take i) y) := by
  rw [List.zipIdx_cons, List.flatMap_cons, List.length_append, List.append_assoc,
    List.singleton_append, List.length_singleton]
  dsimp only
  rw [List.take_left]

/-- If elements are left out after the first one with a property, and those without it give nothing,
then this one is left. -/
theorem flatMap_zipIdx_first {p : α → Bool} {g : α → List β} (hg : ∀ x, p x = false → g x = [])
    (earlier xs : List α) :
    ((xs.zipIdx earlier.length).flatMap fun (x, i) =>
      if ((earlier ++ xs).take i).any p then [] else g x) =
        if earlier.any p then [] else (xs.find? p).toList.flatMap g := by
  induction xs generalizing earlier with
  | nil => simp
  | cons x xs ih =>
    rw [flatMap_zipIdx_cons (fun ys y => if ys.any p then [] else g y), ih, List.any_append,
      List.find?_cons]
    cases earlier.any p with
    | true => simp
    | false =>
      cases hx : p x with
      | true => simp [hx]
      | false => simp [hx, hg x hx]

end

namespace Engine

variable {config : Config} {rules : List Rule} {s : Ruleset}

/-- Every sequence has the actions that it has alone, without those that repeat a rule of an earlier
sequence. -/
theorem actionsFrom_eq (hs : Ruleset.compile config rules = .ok s) (earlier : List Sequence)
    (reported : List Nat) (sequences : List Sequence) (hreported : ∀ i, i ∈ reported ↔
      ∃ x ∈ earlier, i ∈ (s.metConditions x).map MetCondition.rule) : actionsFrom s reported sequences =
      (sequences.zipIdx earlier.length).flatMap fun (sequence, i) =>
        (s.actions sequence).filter fun a =>
          !s.isRepeat ((earlier ++ sequences).take i) a := by
  induction sequences generalizing earlier reported with
  | nil => rfl
  | cons sequence sequences ih =>
    have hnext : ∀ i, i ∈ (s.scan sequence reported).2 ↔
        ∃ x ∈ earlier ++ [sequence], i ∈ (s.metConditions x).map MetCondition.rule := by
      intro i
      rw [Ruleset.mem_scan_snd, hreported]
      simp [or_and_right, exists_or]
    rw [flatMap_zipIdx_cons fun ys y => (s.actions y).filter fun a => !s.isRepeat ys a,
      ← ih _ _ hnext, ← Ruleset.scan_of_reported hs hreported]
    rfl

theorem actions_eq {e : Engine} (hs : Ruleset.compile config rules = .ok e.ruleset) (r : Request) :
    e.actions r = r.query.sequences.zipIdx.flatMap fun (sequence, i) =>
      (e.ruleset.actions sequence).filter fun a =>
        !e.ruleset.isRepeat (r.query.sequences.take i) a :=
  actionsFrom_eq hs [] [] _ (by simp)

/-- The actions of a request that report the rule with an id. -/
def actionsOf (e : Engine) (r : Request) (id : Json) : List Action :=
  (e.actions r).filter fun a => a.rules.any fun q => q.id.compact = id.compact

/-- A rule with a condition has the actions of the first sequence in which the condition holds. -/
theorem actionsOf_eq {e : Engine} (hs : Ruleset.compile config rules = .ok e.ruleset) (r : Request)
    {q : Rule} (hq : q ∈ e.ruleset.rules) {f : Condition} {source : String}
    (ht : q.trigger = .condition f source) :
    e.actionsOf r q.id = (r.query.sequences.find? fun sequence =>
      f.holds (e.ruleset.config.metBefore sequence sequence.size)).toList.flatMap
        (e.ruleset.actionsOf · q.id) := by
  have hempty : ∀ sequence : Sequence,
      f.holds (e.ruleset.config.metBefore sequence sequence.size) = false →
        e.ruleset.actionsOf sequence q.id = [] := by
    intro sequence hf
    rw [← List.isEmpty_iff, Ruleset.isEmpty_actionsOf hs hq ht, hf]
    rfl
  have hfirst := flatMap_zipIdx_first hempty [] r.query.sequences
  rw [List.any_nil, if_neg Bool.false_ne_true] at hfirst
  unfold actionsOf
  rw [actions_eq hs, List.filter_flatMap, ← hfirst]
  refine List.flatMap_congr fun (sequence, i) _ => ?_
  have hcomm := List.filter_comm (fun a => !e.ruleset.isRepeat (r.query.sequences.take i) a)
    (fun a => a.rules.any fun p => p.id.compact = q.id.compact) (e.ruleset.actions sequence)
  exact hcomm.symm.trans (Ruleset.filter_isRepeat_actionsOf hs hq ht _)

/-- The actions of phrases are those of every sequence. -/
theorem filter_isCondition_actions {e : Engine}
    (hs : Ruleset.compile config rules = .ok e.ruleset) (r : Request) :
    (e.actions r).filter (fun a => !a.isCondition) = r.query.sequences.flatMap fun sequence =>
      (e.ruleset.actions sequence).filter fun a => !a.isCondition := by
  have hphrase (earlier : List Sequence) (sequence : Sequence) :
      (((e.ruleset.actions sequence).filter fun a => !e.ruleset.isRepeat earlier a).filter
        fun a => !a.isCondition) =
      (e.ruleset.actions sequence).filter fun a => !a.isCondition := by
    rw [List.filter_filter]
    refine List.filter_congr fun a _ => ?_
    cases ha : a.isCondition with
    | true => rfl
    | false =>
      rw [Action.isCondition, List.any_eq_false] at ha
      have hrepeat : e.ruleset.isRepeat earlier a = false :=
        List.any_eq_false.2 fun q hq => by simp [ha q hq]
      rw [hrepeat]
      rfl
  rw [actions_eq hs, List.filter_flatMap]
  simp only [hphrase]
  conv_rhs => rw [← List.zipIdx_map_fst 0 r.query.sequences, List.flatMap_map]

/-- Every sequence of a request has the actions that it has alone, without those that repeat a rule
of an earlier sequence. So a rule with a condition has one action, in the first sequence in which
the condition holds, and the actions of phrases are those of every sequence. -/
theorem actions_once {e : Engine} (hs : Ruleset.compile config rules = .ok e.ruleset)
    (r : Request) :
    (e.actions r = r.query.sequences.zipIdx.flatMap fun (sequence, i) =>
      (e.ruleset.actions sequence).filter fun a =>
        !e.ruleset.isRepeat (r.query.sequences.take i) a) ∧
    (∀ q ∈ e.ruleset.rules, ∀ f source, q.trigger = .condition f source →
      let first := r.query.sequences.find? fun sequence =>
        f.holds (e.ruleset.config.metBefore sequence sequence.size)
      e.actionsOf r q.id = first.toList.flatMap (e.ruleset.actionsOf · q.id) ∧
        (e.actionsOf r q.id).length = if first.isSome then 1 else 0) ∧
    (e.actions r).filter (fun a => !a.isCondition) = r.query.sequences.flatMap fun sequence =>
      (e.ruleset.actions sequence).filter fun a => !a.isCondition := by
  refine ⟨actions_eq hs r, fun q hq f source ht => ?_, filter_isCondition_actions hs r⟩
  have hone := actionsOf_eq hs r hq ht
  refine ⟨hone, ?_⟩
  rw [hone]
  cases hfirst : r.query.sequences.find? fun sequence =>
      f.holds (e.ruleset.config.metBefore sequence sequence.size) with
  | none => rfl
  | some sequence =>
    have hholds := List.find?_some hfirst
    rw [Option.toList_some, List.flatMap_singleton, Ruleset.length_actionsOf hs hq ht, if_pos hholds]
    rfl

/-- Both the outer and the nested query satisfy the first condition, only the nested one the
second. -/
theorem actions_once_nested :
    let one : Condition := .literal { value := "one" }
    let two : Condition := .literal { value := "two" }
    let red : Condition := .literal { value := "red" }
    let rules := [.bare "a" (.condition (.all [one, two]) ""),
      .bare "b" (.condition (.any [red, .not one]) ""), .bare "c" (.phrase [{ value := "two" }])]
    let r : Request :=
      { query := [(1, .boolean .should false []), (5, .group .must false []),
          (6, .term { value := "one" }), (5, .group .must false []), (8, .term { value := "two" }),
          (8, .term { value := "red" })].foldl (fun q (p : Nat × Node) => (q.attach p.1 p.2).1)
            (.ofTerms [(.should, { value := "one" }), (.must, { value := "two" })]) }
    let e : Engine := .ofRuleset (.build {} (rules.map (Ruleset.normalized {})))
    ∃ outer inner, r.query.sequences = [outer, inner] ∧
      e.actions r = e.ruleset.actions outer ++
        (e.ruleset.actions inner).filter (fun a => !e.ruleset.isRepeat [outer] a) ∧
      (e.actionsOf r (.string "a")).length = 1 ∧ (e.actionsOf r (.string "b")).length = 1 ∧
      ((e.actions r).filter fun a => !a.isCondition) =
        ((e.ruleset.actions outer).filter fun a => !a.isCondition) ++
          (e.ruleset.actions inner).filter fun a => !a.isCondition := by
  intro one two red rules r e
  have hs : Ruleset.compile {} rules = .ok e.ruleset :=
    Ruleset.compile_eq_ok_iff.2 ⟨by decide +kernel, by decide +kernel, rfl⟩
  have hrules : e.ruleset.rules = rules.map (Ruleset.normalized {}) := Ruleset.rules_of_compile hs
  obtain ⟨outer, inner, hsequences⟩ : ∃ outer inner, r.query.sequences = [outer, inner] :=
    List.length_eq_two.1 (by decide +kernel)
  obtain ⟨hactions, hconditions, hphrases⟩ := actions_once hs r
  have hfirst := (hconditions (Ruleset.normalized {} (.bare "a" (.condition (.all [one, two]) "")))
    (hrules ▸ List.mem_cons_self) _ _ rfl).2
  have hsecond := (hconditions
    (Ruleset.normalized {} (.bare "b" (.condition (.any [red, .not one]) "")))
    (hrules ▸ List.mem_cons_of_mem _ List.mem_cons_self) _ _ rfl).2
  rw [if_pos (by decide +kernel)] at hfirst hsecond
  have hnone : ∀ a, e.ruleset.isRepeat [] a = false := fun a => by simp [Ruleset.isRepeat]
  rw [hsequences] at hactions hphrases
  refine ⟨outer, inner, hsequences, ?_, hfirst, hsecond, ?_⟩
  · simpa [hnone] using hactions
  · simpa using hphrases

end Engine

end QueryRules
