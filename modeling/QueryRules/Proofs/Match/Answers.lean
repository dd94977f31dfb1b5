import QueryRules.Proofs.Match.Notify
import QueryRules.Proofs.Permutation
import QueryRules.Proofs.Ruleset.Indexed

/-!
# What a run hands out

The answers of a run over a circuit that lists some conditions (`Circuit.ListsAll`), where the run
has been told which literals were met.

- `Run.Invariant.collect_perm`: it hands out the conditions without a not that have come to hold
  since the last answer.
- `Run.Invariant.finish_eq`: at the end it also hands out the conditions with a not that hold.
-/

namespace QueryRules

variable {c : Circuit} {reg : Register} {rules : List (Condition × Nat)}

namespace Run

variable {met out : Nat → Bool} {r : Run} {v w : Literal → Bool} {α : Type}
  {f : MetCondition → α} {g : Condition × Nat → α} {n : Nat}

/-- A condition without a not has come to hold if it holds over the literals that were met; one with
a not has not. -/
theorem Invariant.fired_of_lists (hc : c.WellFormed) (hl : c.ListsAll reg rules)
    (h : Invariant c met out r []) (hv : ∀ id l, reg.literal? id = some l → met id = v l) {k : Nat}
    {p : Condition × Nat} (hp : rules[k]? = some p) :
    r.fired[k]? = some (p.1.isPositive && p.1.holds v) := by
  obtain ⟨rule, hk⟩ := hl.exists_rule hp
  exact h.fired_eq hc hv hk (hl.lists hk hp).2.denotes

/-- An answer has the conditions without a not that hold over the literals that were met and have
not been handed out, as they hold over the literals `w` alone. -/
theorem Invariant.collect_perm (hc : c.WellFormed) (hl : c.ListsAll reg rules)
    (h : Invariant c met out r []) (hv : ∀ id l, reg.literal? id = some l → met id = v l)
    (hout : ∀ (k : Nat) p, rules[k]? = some p → out k = (p.1.isPositive && p.1.holds w))
    (hfg : ∀ (k : Nat) rule p, c.rules[k]? = some rule → rules[k]? = some p →
      f (r.metCondition n rule) = g p) :
    ((r.collect c n).2.map f).Perm
      ((rules.filter fun p => p.1.isPositive && (p.1.holds v && !p.1.holds w)).map g) := by
  have hanswer : (r.collect c n).2.map f =
      (r.pending.filterMap fun k => rules[k]?).map g := by
    rw [Run.collect, List.map_filterMap, List.map_filterMap]
    refine List.filterMap_congr fun k _ => ?_
    cases hp : rules[k]? with
    | some p =>
      obtain ⟨rule, hk⟩ := hl.exists_rule hp
      rw [hk]
      exact congrArg some (hfg k rule p hk hp)
    | none =>
      rw [List.getElem?_eq_none_iff, ← hl.length_eq, ← List.getElem?_eq_none_iff] at hp
      rw [hp]
      rfl
  have hpending : (rules.zipIdx.filter fun q => decide (q.2 ∈ r.pending)) =
      rules.zipIdx.filter fun q =>
        q.1.1.isPositive && (q.1.1.holds v && !q.1.1.holds w) := by
    refine List.filter_congr fun q hq => ?_
    have hp : rules[q.2]? = some q.1 := List.mem_zipIdx_iff_getElem?.1 hq
    rw [Bool.eq_iff_iff, decide_eq_true_eq, h.mem_pending, h.fired_of_lists hc hl hv hp,
      hout q.2 q.1 hp]
    cases q.1.1.isPositive <;> simp
  rw [hanswer, ← map_filter_zipIdx (fun p : Condition × Nat =>
    p.1.isPositive && (p.1.holds v && !p.1.holds w)) rules 0, ← hpending]
  exact (filterMap_getElem?_perm h.nodup_pending _).map g

/-- The last answer also has the conditions with a not that hold over the literals that were met. -/
theorem Invariant.finish_eq (hc : c.WellFormed) (hl : c.ListsAll reg rules)
    (h : Invariant c met out r []) (hv : ∀ id l, reg.literal? id = some l → met id = v l)
    (hfg : ∀ (k : Nat) rule p, c.rules[k]? = some rule → rules[k]? = some p →
      f (r.metCondition n rule) = g p) :
    (r.finish c n).map f = (r.collect c n).2.map f ++
      (rules.filter fun p => !p.1.isPositive && p.1.holds v).map g := by
  rw [finish, List.map_append, List.map_filterMap, ← List.filterMap_eq_map (f := g),
    ← List.filterMap_eq_filter, List.filterMap_filterMap]
  congr 1
  refine filterMap_zipIdx_congr hl.length_eq fun k rule p hk hp => ?_
  obtain ⟨-, hlists⟩ := hl.lists hk hp
  have hroot : (values c r)[rule.root]? = some true ↔ p.1.holds v := by
    rw [← h.value_root hc hv hlists.denotes, value]
    cases (values c r)[rule.root]? <;> simp
  dsimp only
  rw [Nat.zero_add, h.fired_of_lists hc hl hv hp, hlists.denotes.isMonotone_eq hc]
  simp only [hroot]
  cases hpos : p.1.isPositive <;> cases hholds : p.1.holds v <;>
    simp [Option.guard, hpos, hholds, hfg k rule p hk hp]

end Run

end QueryRules
