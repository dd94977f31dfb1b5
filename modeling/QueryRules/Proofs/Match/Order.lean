import Mathlib.Order.Bounds.Basic
import QueryRules.Proofs.Match.Actions
import QueryRules.Proofs.RuleText.Queries

/-!
# The order in which rules are applied

Rules with one phrase share an action, and an action comes where the first of its rules belongs.

- `Ruleset.applications`: what is applied to a sequence, rule by rule.
- `Ruleset.ascending_build`: the rules under one text of the trie are stored in their order. By
  induction over the rules, since each of them is stored after those before it.
- `Ruleset.numbered_of_ofText`: the order of a rule is its place in the rules text.
- `Ruleset.applications_inOrder`: rules are applied by the start of their match and by their order,
  but for rules that come with an earlier rule of the same phrase (`applications_merged`).
-/

namespace QueryRules

/-- The lowest order among rules is that of one of them. -/
theorem Rule.isLeast_lowestOrder? {rules : List Rule} {n : Nat}
    (h : Rule.lowestOrder? rules = some n) : IsLeast {n | ∃ r ∈ rules, r.order = n} n := by
  induction rules generalizing n with
  | nil => exact nomatch h
  | cons r rules ih =>
    rw [lowestOrder?, Option.some.injEq] at h
    cases hrest : lowestOrder? rules with
    | none =>
      obtain rfl : rules = [] := by
        cases rules with
        | nil => rfl
        | cons q rules => exact nomatch hrest
      rw [hrest, Option.elim_none] at h
      subst h
      exact ⟨⟨r, List.mem_singleton_self r, rfl⟩, by simp [lowerBounds]⟩
    | some m =>
      obtain ⟨⟨q, hq, rfl⟩, hm⟩ := ih hrest
      rw [hrest, Option.elim_some] at h
      have hle : ∀ p ∈ rules, q.order ≤ p.order := fun p hp => hm ⟨p, hp, rfl⟩
      split at h
      · subst h
        refine ⟨⟨r, List.mem_cons_self, rfl⟩, ?_⟩
        rintro _ ⟨p, hp, rfl⟩
        rcases List.mem_cons.1 hp with rfl | hp
        · exact Nat.le_refl _
        · have := hle p hp
          omega
      · subst h
        refine ⟨⟨q, List.mem_cons_of_mem _ hq, rfl⟩, ?_⟩
        rintro _ ⟨p, hp, rfl⟩
        rcases List.mem_cons.1 hp with rfl | hp
        · omega
        · exact hle p hp

theorem Action.isLeast_order {a : Action} (h : a.rules ≠ []) :
    IsLeast {n | ∃ r ∈ a.rules, r.order = n} a.order := by
  obtain ⟨r, rules, hrules⟩ := List.exists_cons_of_ne_nil h
  refine Rule.isLeast_lowestOrder? ?_
  rw [Action.order, hrules]
  rfl

namespace Ruleset

/-- What is applied to a sequence: every rule of every action, in order. -/
def applications (s : Ruleset) (sequence : Sequence) : List (Action × Rule) :=
  (s.actions sequence).flatMap fun a => a.rules.map fun r => (a, r)

/-! ## Rules under one text -/

/-- The rules stored under one text are stored in their order. -/
def Ascending (s : Ruleset) : Prop :=
  ∀ b key, ((s.trie.targets b key).filterMap ruleIndex?).Pairwise (· < ·)

/-- Storing a literal adds no rule. -/
theorem filterMap_ruleIndex?_insert_literal (t : Trie Target) (b b' : Bool) (id : Nat)
    (key key' : List Char) :
    ((t.insert b (.literal id) key).targets b' key').filterMap ruleIndex? =
      (t.targets b' key').filterMap ruleIndex? := by
  rw [Trie.targets_insert]
  split
  · rw [Trie.addNew]
    split
    · rfl
    · simp [ruleIndex?]
  · rfl

theorem filterMap_ruleIndex?_foldl_insert (ls : List (Literal × Nat)) (t : Trie Target) (b : Bool)
    (key : List Char) :
    ((ls.foldl (fun t (l, id) => t.insert l.isPrefix (.literal id) l.value.toList) t).targets
      b key).filterMap ruleIndex? = (t.targets b key).filterMap ruleIndex? := by
  induction ls generalizing t with
  | nil => rfl
  | cons p ls ih => rw [List.foldl_cons, ih, filterMap_ruleIndex?_insert_literal]

variable {s : Ruleset} {rules : List Rule}

/-- A rule that is added is stored after the rules before it. -/
theorem Ascending.add (ha : s.Ascending) (h : s.Indexed rules) (r : Rule) :
    (s.add (r, rules.length)).Ascending := by
  intro b key
  cases hr : r.trigger with
  | condition f source =>
    rw [Ruleset.add, hr]
    exact (filterMap_ruleIndex?_foldl_insert _ _ b key).symm ▸ ha b key
  | phrase literals =>
    rw [Ruleset.add, hr]
    dsimp only
    rw [Trie.targets_insert]
    split
    · rw [Trie.addNew]
      split
      · exact ha b key
      · rw [List.filterMap_append, List.pairwise_append]
        refine ⟨ha b key, List.pairwise_singleton _ _, fun i hi j hj => ?_⟩
        obtain rfl : j = rules.length := List.mem_singleton.1 hj
        obtain ⟨t, ht, hi⟩ := List.mem_filterMap.1 hi
        cases t with
        | literal id => cases hi
        | rule k =>
          -- what is stored already belongs to a rule that has been added before
          obtain rfl : k = i := Option.some.inj hi
          obtain ⟨q, -, hq, -⟩ := (h.mem_rule b key k).1 ht
          exact (List.getElem?_eq_some_iff.1 hq).1
    · exact ha b key

/-- The rules under one text of a rule set that is built are stored in their order. -/
theorem ascending_build (config : Config) (rules : List Rule) : (build config rules).Ascending := by
  refine (build_induction config rules (P := fun s added => s.Indexed added ∧ s.Ascending)
    ⟨indexed_nil config rules, fun b key => ?_⟩ fun s added r h => ⟨h.1.add r, h.2.add h.1 r⟩).2
  rw [Trie.targets_empty]
  exact .nil

theorem ascending_of_compile {config : Config} (h : compile config rules = .ok s) :
    s.Ascending := by
  obtain ⟨-, -, rfl⟩ := compile_eq_ok_iff.1 h
  exact ascending_build _ _

end Ruleset

/-! ## The order of a rule -/

theorem RuleText.order_of_readRule {config : Config} {draft : Draft} {order : Nat} {r : Rule}
    (h : readRule config draft order = .ok r) : r.order = order := by
  obtain ⟨trigger, -, h⟩ := bind_eq_ok_iff.1 h
  obtain ⟨is, -, h⟩ := bind_eq_ok_iff.1 h
  obtain rfl := Except.ok.inj h
  rfl

namespace Ruleset

variable {config : Config} {text : String} {s : Ruleset}

/-- The order of every rule is its place. -/
def Numbered (s : Ruleset) : Prop := ∀ i (r : Rule), s.rules[i]? = some r → r.order = i

/-- The order of a rule is its place in the rules text; normalizing literals does not change it. -/
theorem numbered_of_ofText (hs : ofText config text = .ok s) : s.Numbered := by
  obtain ⟨rules, hrules, hs⟩ := bind_eq_ok_iff.1 hs
  obtain ⟨drafts, -, hrules⟩ := bind_eq_ok_iff.1 hrules
  intro i r hr
  rw [rules_of_compile hs, List.getElem?_map] at hr
  obtain ⟨q, hq, rfl⟩ := Option.map_eq_some_iff.1 hr
  obtain ⟨p, hp, hread⟩ :=
    exists_getElem?_of_forall₂ (RuleText.forall₂_of_readRulesFrom hrules).flip hq
  rw [List.getElem?_zipIdx] at hp
  obtain ⟨draft, -, rfl⟩ := Option.map_eq_some_iff.1 hp
  exact (RuleText.order_of_readRule hread).trans (Nat.zero_add i)

/-- The rules whose phrases a walk meets ascend in order. -/
theorem Ascending.pairwise_rulesOf (ha : s.Ascending) (hn : s.Numbered) (w : Walk Candidate) :
    (s.rulesOf w).Pairwise fun q r => q.order < r.order := by
  have hphrase {t : Target} {r : Rule} (h : s.phraseRule? w.taken t = some r) :
      ruleIndex? t = some r.order := by
    cases t with
    | literal id => exact nomatch h
    | rule i => rw [ruleIndex?, hn i r (Option.eq_some_of_filter_eq_some h)]
  refine List.pairwise_filterMap.2 ((List.pairwise_filterMap.1 (ha _ _)).imp ?_)
  exact fun h q hq r hr => h _ (hphrase hq) _ (hphrase hr)

/-- The rules of one action ascend in order. -/
theorem Ascending.pairwise_rules (ha : s.Ascending) (hn : s.Numbered) (h : s.Indexed s.rules)
    {sequence : Sequence} {a : Action} (hm : a ∈ s.actions sequence) :
    a.rules.Pairwise fun q r => q.order < r.order := by
  rcases List.mem_append.1 ((h.actions_perm sequence).mem_iff.1 hm) with hm | hm
  · obtain ⟨start, w, -, hrules, -⟩ := exists_walk_of_mem_phraseActions hm
    rw [hrules]
    exact ha.pairwise_rulesOf hn w
  · obtain ⟨m, hmet, rfl⟩ := List.mem_map.1 hm
    obtain ⟨r, -, hr, -⟩ := h.rules_conditionAction hmet
    rw [hr]
    exact List.pairwise_singleton _ r

/-! ## Applications -/

/-- What is applied goes by the start of its action and by the lowest order in its action. -/
theorem pairwise_applications (s : Ruleset) (sequence : Sequence) :
    (s.applications sequence).Pairwise fun p q =>
      p.1.start < q.1.start ∨ p.1.start = q.1.start ∧ p.1.order ≤ q.1.order := by
  refine List.pairwise_flatMap.2 ⟨fun a _ => ?_, ?_⟩
  · exact List.pairwise_map.2 (List.pairwise_of_forall fun q r => .inr ⟨rfl, Nat.le_refl _⟩)
  · refine (Action.pairwise_sort _).imp fun {a b} hab p hp q hq => ?_
    obtain ⟨r, -, rfl⟩ := List.mem_map.1 hp
    obtain ⟨r', -, rfl⟩ := List.mem_map.1 hq
    exact Action.comesBefore_iff.1 hab

/-- Rules are applied by the start of their match and by their order, but for those that come with
an earlier rule in one action: what is applied after them has no lower order than that rule, but may
have a lower one than they. In an action the rules ascend in order. -/
theorem applications_inOrder (hs : ofText config text = .ok s) (sequence : Sequence) :
    ((s.applications sequence).Pairwise fun p q => p.1.start < q.1.start ∨
      p.1.start = q.1.start ∧
        (p.2.order ≤ q.2.order ∨ p.1.order < p.2.order ∧ p.1.order ≤ q.2.order)) ∧
    ∀ a ∈ s.actions sequence, IsLeast {n | ∃ r ∈ a.rules, r.order = n} a.order ∧
      a.rules.Pairwise fun q r => q.order < r.order := by
  have hn := numbered_of_ofText hs
  obtain ⟨rules, -, hcompile⟩ := bind_eq_ok_iff.1 hs
  have h := indexed_of_compile hcompile
  have ha := ascending_of_compile hcompile
  have hleast : ∀ a ∈ s.actions sequence, IsLeast {n | ∃ r ∈ a.rules, r.order = n} a.order :=
    fun a hm => Action.isLeast_order (h.rules_ne_nil hm)
  refine ⟨(pairwise_applications s sequence).imp_of_mem fun {p q} hp hq hpq => ?_,
    fun a hm => ⟨hleast a hm, ha.pairwise_rules hn h hm⟩⟩
  have hle {p : Action × Rule} (hp : p ∈ s.applications sequence) : p.1.order ≤ p.2.order := by
    obtain ⟨a, hm, hp⟩ := List.mem_flatMap.1 hp
    obtain ⟨r, hr, rfl⟩ := List.mem_map.1 hp
    exact (hleast a hm).2 ⟨r, hr, rfl⟩
  have hp := hle hp
  have hq := hle hq
  omega

theorem applications_inOrder_shared :
    ∃ s, ofText {} "b =>\na b =>\na =>\nb =>" = .ok s ∧
      ((s.applications (.ofValues ["a", "b"])).map fun p => (p.1.start, p.2.order)) =
        [(0, 1), (0, 2), (1, 0), (1, 3)] ∧
      ∀ a ∈ s.actions (.ofValues ["a", "b"]), a.rules.Pairwise fun q r => q.order < r.order := by
  have hscan : (ofText {} "b =>\na b =>\na =>\nb =>").map (fun s =>
      (s.applications (.ofValues ["a", "b"])).map fun p => (p.1.start, p.2.order)) =
        .ok [(0, 1), (0, 2), (1, 0), (1, 3)] := by decide +kernel
  obtain ⟨s, hs, hscan⟩ := exists_of_map_eq_ok hscan
  exact ⟨s, hs, hscan, fun a ha => ((applications_inOrder hs _).2 a ha).2⟩

/-- The third rule is applied before the second one, since it comes with the first one. -/
theorem applications_merged :
    ∃ s, ofText {} "a =>\na b =>\na =>" = .ok s ∧
      ((s.applications (.ofValues ["a", "b"])).map fun p => (p.1.start, p.2.order)) =
        [(0, 0), (0, 2), (0, 1)] ∧
      ¬ (s.applications (.ofValues ["a", "b"])).Pairwise fun p q => p.1.start < q.1.start ∨
        p.1.start = q.1.start ∧ p.2.order ≤ q.2.order := by
  have hscan : (ofText {} "a =>\na b =>\na =>").map (fun s =>
      (s.applications (.ofValues ["a", "b"])).map fun p => (p.1.start, p.2.order)) =
        .ok [(0, 0), (0, 2), (0, 1)] := by decide +kernel
  obtain ⟨s, hs, hscan⟩ := exists_of_map_eq_ok hscan
  refine ⟨s, hs, hscan, fun h => ?_⟩
  have h := (List.pairwise_map (f := fun p : Action × Rule => (p.1.start, p.2.order))
    (R := fun p q => p.1 < q.1 ∨ p.1 = q.1 ∧ p.2 ≤ q.2)).2 h
  rw [hscan] at h
  exact absurd h (by decide)

end Ruleset

end QueryRules
