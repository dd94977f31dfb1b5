import Mathlib.Data.List.Induction
import QueryRules.Proofs.Match.Meaning
import QueryRules.Proofs.Match.Walk
import QueryRules.Ruleset

/-!
# What a rule set holds

`Ruleset.Indexed s rules`: the trie of `s` stores just the phrases of these rules and the literals
of the register, and its circuit lists just their conditions, in order. Adding one rule keeps this
(`Indexed.add`), so that it is so for every rule set that is built (`build_induction`,
`indexed_build`).
-/

namespace QueryRules

open Ruleset

/-- A circuit lists a condition: the condition ends in the listed gate, and the numbers of its
literals outside every not are listed with it. -/
structure Circuit.Lists (c : Circuit) (reg : Register) (rule : CircuitRule) (f : Condition) :
    Prop where
  denotes : c.Denotes reg f rule.root
  positive : ∀ id, id ∈ rule.positive ↔ ∃ l ∈ f.positiveLiterals, reg.literal? id = some l

theorem Circuit.Lists.mono {c c' : Circuit} {reg reg' : Register} (hc : c.Extends c')
    (hr : reg.Extends reg') {rule : CircuitRule} {f : Condition} (h : c.Lists reg rule f) :
    c'.Lists reg' rule f where
  denotes := h.denotes.mono hc hr
  positive id := by
    rw [h.positive]
    constructor
    · rintro ⟨l, hl, hid⟩
      exact ⟨l, hl, hr.literal? hid⟩
    · rintro ⟨l, hl, hid⟩
      -- the literal has had its number since the condition was added
      obtain ⟨id', hid'⟩ := h.denotes.mem_literals hl
      have he := Register.id?_eq_some_iff.2 (hr.literal? hid')
      rw [Register.id?_eq_some_iff.2 hid, Option.some.injEq] at he
      exact ⟨l, hl, he ▸ hid'⟩

/-- A circuit lists some conditions with the places of their rules, in order. -/
def Circuit.ListsAll (c : Circuit) (reg : Register) (rules : List (Condition × Nat)) : Prop :=
  List.Forall₂ (fun rule (p : Condition × Nat) => rule.rule = p.2 ∧ c.Lists reg rule p.1)
    c.rules rules

section

variable {c : Circuit} {reg : Register} {rules : List (Condition × Nat)}

theorem Circuit.ListsAll.lists (hl : c.ListsAll reg rules) {k : Nat} {rule : CircuitRule}
    {p : Condition × Nat} (hk : c.rules[k]? = some rule) (hp : rules[k]? = some p) :
    rule.rule = p.2 ∧ c.Lists reg rule p.1 := by
  obtain ⟨hlt, rfl⟩ := List.getElem?_eq_some_iff.1 hk
  obtain ⟨hlt', rfl⟩ := List.getElem?_eq_some_iff.1 hp
  exact (List.forall₂_iff_get.1 hl).2 k hlt hlt'

theorem Circuit.ListsAll.exists_rule (hl : c.ListsAll reg rules) {k : Nat} {p : Condition × Nat}
    (hp : rules[k]? = some p) : ∃ rule, c.rules[k]? = some rule :=
  ⟨_, List.getElem?_eq_getElem (hl.length_eq ▸ (List.getElem?_eq_some_iff.1 hp).1)⟩

/-- One more condition is listed last. -/
theorem Circuit.ListsAll.withRule (hl : c.ListsAll reg rules) (hc : c.WellFormed) (rule : Nat)
    (f : Condition) :
    (c.withRule reg rule f).1.ListsAll (c.withRule reg rule f).2 (rules ++ [(f, rule)]) := by
  obtain ⟨-, hext, hreg, root, hrules, hroot⟩ := Circuit.withRule_spec hc reg rule f
  unfold ListsAll
  rw [hrules]
  refine List.rel_append (hl.imp fun _ _ hp => ⟨hp.1, hp.2.mono hext hreg⟩) ?_
  refine .cons ⟨rfl, hroot, fun id => ?_⟩ .nil
  simp [Register.id?_eq_some_iff]

end

/-- The conditions of rules with the places of the rules. -/
def Rule.conditions (rules : List Rule) : List (Condition × Nat) :=
  rules.zipIdx.filterMap fun (r, i) =>
    match r.trigger with
    | .phrase _ => none
    | .condition f _ => some (f, i)

/-- What the trie, the register and the circuit of a rule set hold once some rules have been
added. -/
structure Ruleset.Indexed (s : Ruleset) (rules : List Rule) : Prop where
  wellFormed : s.circuit.WellFormed
  nodup_targets : ∀ b key, (s.trie.targets b key).Nodup
  mem_rule : ∀ b key i, Target.rule i ∈ s.trie.targets b key ↔
    ∃ r literals, rules[i]? = some r ∧ r.trigger = .phrase literals ∧
      b = endsInPrefix literals ∧ key = phraseKey literals
  mem_literal : ∀ b key id, Target.literal id ∈ s.trie.targets b key ↔
    ∃ l, s.register.literal? id = some l ∧ b = l.isPrefix ∧ key = l.value.toList
  conditions : List.Forall₂ (fun rule (p : Condition × Nat) =>
    rule.rule = p.2 ∧ s.circuit.Lists s.register rule p.1) s.circuit.rules (Rule.conditions rules)

namespace Ruleset

theorem conditions_append_phrase {rules : List Rule} {r : Rule} {literals : List Literal}
    (hr : r.trigger = .phrase literals) :
    Rule.conditions (rules ++ [r]) = Rule.conditions rules := by
  simp [Rule.conditions, List.zipIdx_append, hr]

theorem conditions_append_condition {rules : List Rule} {r : Rule} {f : Condition} {source : String}
    (hr : r.trigger = .condition f source) :
    Rule.conditions (rules ++ [r]) = Rule.conditions rules ++ [(f, rules.length)] := by
  simp [Rule.conditions, List.zipIdx_append, hr]

/-- One more rule at the end of a list. -/
theorem exists_getElem?_append {rules : List Rule} {r : Rule} {i : Nat} {p : Rule → Prop} :
    (∃ q, (rules ++ [r])[i]? = some q ∧ p q) ↔
      (∃ q, rules[i]? = some q ∧ p q) ∨ (i = rules.length ∧ p r) := by
  rcases Nat.lt_trichotomy i rules.length with h | rfl | h
  · rw [List.getElem?_append_left h]
    simp [Nat.ne_of_lt h]
  · simp
  · rw [List.getElem?_eq_none (by simp; omega), List.getElem?_eq_none (by omega)]
    simp
    omega

/-- Adding the phrase of a rule stores it in the trie. -/
theorem Indexed.add_phrase {s : Ruleset} {rules : List Rule} (h : s.Indexed rules) {r : Rule}
    {literals : List Literal} (hr : r.trigger = .phrase literals) :
    (s.add (r, rules.length)).Indexed (rules ++ [r]) := by
  have hadd : s.add (r, rules.length) =
      { s with
        trie := s.trie.insert (endsInPrefix literals) (.rule rules.length)
          (phraseKey literals) } := by
    rw [add, hr]
  rw [hadd]
  constructor
  case wellFormed => exact h.wellFormed
  case nodup_targets => exact fun b key => Trie.nodup_targets_insert (h.nodup_targets b key)
  case mem_rule =>
    intro b key i
    rw [Trie.mem_targets_insert, h.mem_rule]
    simp only [exists_and_left, exists_getElem?_append, hr, Trigger.phrase.injEq, Target.rule.injEq]
    exact or_congr_right ⟨fun ⟨hb, hk, hi⟩ => ⟨hi, _, rfl, hb, hk⟩,
      fun ⟨hi, _, rfl, hb, hk⟩ => ⟨hb, hk, hi⟩⟩
  case mem_literal =>
    intro b key id
    rw [Trie.mem_targets_insert, h.mem_literal]
    simp
  case conditions =>
    rw [conditions_append_phrase hr]
    exact h.conditions

/-- Storing literals in a trie adds them under their values and changes nothing else. -/
theorem mem_targets_foldl_insert {ls : List (Literal × Nat)} {t : Trie Target} {b : Bool}
    {key : List Char} {x : Target} :
    x ∈ (ls.foldl (fun t (l, id) => t.insert l.isPrefix (.literal id) l.value.toList) t).targets
        b key ↔ x ∈ t.targets b key ∨
      ∃ l id, (l, id) ∈ ls ∧ b = l.isPrefix ∧ key = l.value.toList ∧ x = .literal id := by
  induction ls generalizing t with
  | nil => simp
  | cons p ls ih =>
    obtain ⟨l, id⟩ := p
    rw [List.foldl_cons, ih, Trie.mem_targets_insert, or_assoc]
    refine or_congr_right ?_
    constructor
    · rintro (⟨hb, hk, hx⟩ | ⟨l', id', hm, h⟩)
      · exact ⟨l, id, by simp, hb, hk, hx⟩
      · exact ⟨l', id', List.mem_cons_of_mem _ hm, h⟩
    · rintro ⟨l', id', hm, h⟩
      rcases List.mem_cons.1 hm with he | hm
      · cases he
        exact .inl h
      · exact .inr ⟨l', id', hm, h⟩

theorem nodup_targets_foldl_insert {ls : List (Literal × Nat)} {t : Trie Target} {b : Bool}
    {key : List Char} (h : (t.targets b key).Nodup) :
    ((ls.foldl (fun t (l, id) => t.insert l.isPrefix (.literal id) l.value.toList) t).targets
      b key).Nodup := by
  induction ls generalizing t with
  | nil => exact h
  | cons p ls ih => exact ih (Trie.nodup_targets_insert h)

/-- The literals that a register has beyond another one. -/
theorem mem_fresh {reg reg' : Register} {l : Literal} {id : Nat} :
    (l, id) ∈ reg'.literals.zipIdx.drop reg.size ↔ reg'.literal? id = some l ∧ reg.size ≤ id := by
  rw [List.mem_iff_getElem?]
  simp only [List.getElem?_drop, List.getElem?_zipIdx, Option.map_eq_some_iff, Prod.mk.injEq,
    Nat.zero_add]
  constructor
  · rintro ⟨n, k, hk, rfl, rfl⟩
    exact ⟨hk, by omega⟩
  · rintro ⟨hk, hle⟩
    exact ⟨id - reg.size, l, by rw [Nat.add_sub_cancel' hle]; exact hk, rfl, by omega⟩

/-- Adding the condition of a rule lists it in the circuit and stores the literals that are new. -/
theorem Indexed.add_condition {s : Ruleset} {rules : List Rule} (h : s.Indexed rules) {r : Rule}
    {f : Condition} {source : String} (hr : r.trigger = .condition f source) :
    (s.add (r, rules.length)).Indexed (rules ++ [r]) := by
  have hspec := Circuit.withRule_spec h.wellFormed s.register rules.length f
  have hlists := Circuit.ListsAll.withRule h.conditions h.wellFormed rules.length f
  generalize hcr : s.circuit.withRule s.register rules.length f = p at hspec hlists
  obtain ⟨c, reg⟩ := p
  obtain ⟨hwf, -, hreg, -⟩ := hspec
  have hadd : s.add (r, rules.length) =
      { s with
        circuit := c, register := reg
        trie := (reg.literals.zipIdx.drop s.register.size).foldl
          (fun t (l, id) => t.insert l.isPrefix (.literal id) l.value.toList) s.trie } := by
    rw [add, hr]
    dsimp only
    rw [hcr]
  rw [hadd]
  constructor
  case wellFormed => exact hwf
  case nodup_targets => exact fun b key => nodup_targets_foldl_insert (h.nodup_targets b key)
  case mem_rule =>
    intro b key i
    rw [mem_targets_foldl_insert, h.mem_rule]
    simp [exists_and_left, exists_getElem?_append, hr]
  case mem_literal =>
    intro b key id
    rw [mem_targets_foldl_insert, h.mem_literal]
    simp only [mem_fresh, Target.literal.injEq]
    constructor
    · rintro (⟨l, hl, hb⟩ | ⟨l, _, ⟨hl, -⟩, hb, hk, rfl⟩)
      · exact ⟨l, hreg.literal? hl, hb⟩
      · exact ⟨l, hl, hb, hk⟩
    · rintro ⟨l, hl, hb, hk⟩
      rcases Nat.lt_or_ge id s.register.size with hlt | hge
      · obtain ⟨k, hk'⟩ : ∃ k, s.register.literal? id = some k :=
          ⟨_, List.getElem?_eq_getElem hlt⟩
        have he := hreg.literal? hk'
        rw [hl, Option.some.injEq] at he
        exact .inl ⟨l, he ▸ hk', hb, hk⟩
      · exact .inr ⟨l, id, ⟨hl, hge⟩, hb, hk, rfl⟩
  case conditions =>
    rw [conditions_append_condition hr]
    exact hlists

/-- Adding one more rule keeps what a rule set holds. -/
theorem Indexed.add {s : Ruleset} {rules : List Rule} (h : s.Indexed rules) (r : Rule) :
    (s.add (r, rules.length)).Indexed (rules ++ [r]) := by
  cases hr : r.trigger with
  | phrase literals => exact h.add_phrase hr
  | condition f source => exact h.add_condition hr

theorem indexed_nil (config : Config) (rules : List Rule) :
    Indexed { config, rules } [] where
  wellFormed := Circuit.wellFormed_empty
  nodup_targets b key := by simp [Trie.targets_empty]
  mem_rule b key i := by simp [Trie.targets_empty]
  mem_literal b key id := by simp [Trie.targets_empty, Register.literal?]
  conditions := .nil

/-- What the rule set without triggers has and every further rule keeps, a rule set that is built
has. -/
theorem build_induction (config : Config) (rules : List Rule) {P : Ruleset → List Rule → Prop}
    (nil : P { config, rules } [])
    (concat : ∀ s added r, P s added → P (s.add (r, added.length)) (added ++ [r])) :
    P (build config rules) rules := by
  have hfold (added : List Rule) : P (added.zipIdx.foldl add { config, rules }) added := by
    induction added using List.reverseRecOn with
    | nil => exact nil
    | append_singleton added r ih =>
      rw [List.zipIdx_append, List.foldl_append, List.zipIdx_singleton, List.foldl_cons,
        List.foldl_nil, Nat.zero_add]
      exact concat _ _ _ ih
  exact hfold rules

/-- A rule set holds what its rules ask for, and keeps the rules as they are. -/
theorem indexed_build (config : Config) (rules : List Rule) :
    (build config rules).config = config ∧ (build config rules).rules = rules ∧
      (build config rules).Indexed rules := by
  have hadd (s : Ruleset) (p : Rule × Nat) :
      (s.add p).config = s.config ∧ (s.add p).rules = s.rules := by
    rw [add]
    split <;> exact ⟨rfl, rfl⟩
  refine build_induction config rules
    (P := fun s added => s.config = config ∧ s.rules = rules ∧ s.Indexed added)
    ⟨rfl, rfl, indexed_nil config rules⟩ fun s added r h => ?_
  rw [(hadd _ _).1, (hadd _ _).2]
  exact ⟨h.1, h.2.1, h.2.2.add r⟩

end Ruleset

end QueryRules
