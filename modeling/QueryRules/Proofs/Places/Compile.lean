import QueryRules.Proofs.Places.Network
import QueryRules.Proofs.Places.NodeTable
import QueryRules.Proofs.Places.RuleText
import QueryRules.Ruleset

/-!
# Rule sets by places

Rules text is made ready for matching with every place checked that is looked at on the way: the
bounds of each slice, the number of the last literal of a phrase, the gates of the circuit, the
nodes of the trie and the numbers of the literals.

- `TableRuleset.Represents`: a rule set whose nodes, gates and literals stand in tables.
- `TableRuleset.Represents.succeeds_add`: one more rule is made ready without a look outside.
- `Places.ofText_inBounds`: rules text either has a fault, the one that it has without places, or
  becomes a rule set, whatever the text and the configuration.
-/

namespace QueryRules.Places

variable {ε : Type}

/-! ## Triggers -/

/-- Refuses a trigger that could not be matched. -/
def checkTrigger : Trigger → Checked RuleFault Unit
  | .phrase literals =>
    if literals = [] then .error (.fault .emptyInput)
    else if literals.any (·.value.isEmpty) then .error (.fault .blankLiteral)
    else do
      let init ← withoutLast literals
      if init.any Literal.isPrefix then .error (.fault .prefixNotLast) else .ok ()
  | .condition c _ => if c.hasPositive then .ok () else .error (.fault .noPositiveLiteral)

/-- The last literal is left out of a phrase that has been found not to be empty. -/
theorem checkTrigger_eq (trigger : Trigger) :
    checkTrigger trigger = .lift (Ruleset.checkTrigger trigger) := by
  cases trigger with
  | phrase literals =>
    rw [checkTrigger, Ruleset.checkTrigger, Checked.lift_ite, Checked.lift_ite]
    split
    · rfl
    · rename_i hne
      rw [withoutLast_eq hne, Checked.lift_ite]
      rfl
  | condition c source =>
    rw [checkTrigger, Ruleset.checkTrigger, Checked.lift_ite]
    rfl

/-- The rule with every literal normalized, if it can be matched. -/
def prepare (config : Config) (rule : Rule) : Checked RuleError Rule := do
  let rule := rule.mapLiterals config.normalizeLiteral
  (checkTrigger rule.trigger).mapFault fun fault => ⟨none, fault⟩
  return rule

theorem prepare_eq (config : Config) (rule : Rule) :
    prepare config rule = .lift (Ruleset.prepare config rule) := by
  simp only [prepare, Ruleset.prepare, checkTrigger_eq, Checked.mapFault_lift, Checked.lift_bind,
    Checked.lift_pure]

/-! ## Rules made ready -/

/-- Rules made ready for matching, with nodes, gates and literals in tables. -/
structure TableRuleset where
  config : Config
  rules : List Rule
  table : NodeTable Target := {}
  register : LiteralTable := .empty
  network : Network := {}

/-- The table with the literal that has a number. -/
def storeLiteral (register : Register) (table : NodeTable Target) (id : Nat) :
    Checked ε (NodeTable Target) := do
  let l ← Checked.get register.literals id
  table.insert l.isPrefix (.literal id) l.value.toList

namespace TableRuleset

/-- The rule set with the trigger of one more rule made ready. -/
def add (b : TableRuleset) (rule : Rule × Nat) : Checked ε TableRuleset :=
  match rule.1.trigger with
  | .phrase literals => do
    let table ← b.table.insert (Ruleset.endsInPrefix literals) (.rule rule.2)
      (Ruleset.phraseKey literals)
    return { b with table }
  | .condition condition _ => do
    let w : Wiring := { network := b.network, register := b.register }
    let w ← w.withRule rule.2 condition
    let table ← w.fresh.foldlM (storeLiteral w.register.toRegister) b.table
    return { b with table, register := w.register, network := w.network }

/-- The rule set of checked rules. -/
def build (config : Config) (rules : List Rule) : Checked ε TableRuleset :=
  rules.zipIdx.foldlM add { config, rules }

/-- The rule set of a list of rules. -/
def compile (config : Config) (rules : List Rule) : Checked RuleError TableRuleset := do
  .lift (Ruleset.checkIds [] rules)
  let rules ← rules.mapM (prepare config)
  build config rules

/-- The tables hold the trie, the literals and the circuit of a rule set. -/
structure Represents (b : TableRuleset) (s : Ruleset) : Prop where
  config : b.config = s.config
  rules : b.rules = s.rules
  table : b.table.Represents s.trie
  register : b.register.toRegister = s.register
  sound : b.network.Sound
  circuit : b.network.circuit = s.circuit

end TableRuleset

/-- The numbers from a number on are those of the literals from there on. -/
theorem map_snd_drop_zipIdx {literals : List Literal} {base : Nat} {fresh : List Nat}
    (h : List.range base ++ fresh = List.range literals.length) :
    (literals.zipIdx.drop base).map Prod.snd = fresh := by
  rw [List.map_drop, List.zipIdx_map_snd, ← List.range_eq_range', ← h]
  exact List.drop_left' List.length_range

/-- Literals are stored under numbers that the register has given them. -/
theorem succeeds_storeLiterals {register : Register} {fresh : List (Literal × Nat)}
    (hfresh : ∀ p ∈ fresh, register.literals[p.2]? = some p.1) {table : NodeTable Target}
    {trie : Trie Target} (h : table.Represents trie) :
    Succeeds ((fresh.map Prod.snd).foldlM (storeLiteral register) table : Checked ε _) fun u =>
      u.Represents (fresh.foldl
        (fun trie (l, id) => trie.insert l.isPrefix (.literal id) l.value.toList) trie) := by
  rw [List.foldlM_map]
  refine Succeeds.foldlM_foldl h fun u trie hu p hp => ?_
  rw [storeLiteral, Checked.get_eq_ok (hfresh p hp)]
  exact hu.succeeds_insert _ _ _

namespace TableRuleset

variable {b : TableRuleset} {s : Ruleset}

/-- A rule is made ready in tables as it is without them, and no look goes outside. -/
theorem Represents.succeeds_add (h : b.Represents s) (rule : Rule × Nat) :
    Succeeds (b.add rule : Checked ε _) fun b' => b'.Represents (s.add rule) := by
  obtain ⟨hconfig, hrules, htable, hregister, hsound, hcircuit⟩ := h
  unfold add Ruleset.add
  cases rule.1.trigger with
  | phrase literals =>
    exact (htable.succeeds_insert _ _ _).bind fun u hu =>
      ⟨_, rfl, hconfig, hrules, hu, hregister, hsound, hcircuit⟩
  | condition condition source =>
    have hw : Wiring.Follows { network := b.network, register := b.register } s.register.size
        s.circuit s.register :=
      ⟨hsound, hcircuit, hregister, List.append_nil _⟩
    refine (hw.succeeds_withRule rule.2 condition).bind fun w hw => ?_
    obtain ⟨hsound, hcircuit, hregister, hfresh⟩ := hw
    rw [hregister, ← map_snd_drop_zipIdx hfresh]
    refine (succeeds_storeLiterals (fun p hp => ?_) htable).bind fun u hu => ?_
    · simpa using List.mem_zipIdx_iff_getElem?.1 (List.mem_of_mem_drop hp)
    · exact ⟨_, rfl, hconfig, hrules, hu, hregister, hsound, hcircuit⟩

theorem succeeds_build (config : Config) (rules : List Rule) :
    Succeeds (build config rules : Checked ε _) fun b =>
      b.Represents (Ruleset.build config rules) := by
  exact Succeeds.foldlM_foldl
    ⟨rfl, rfl, NodeTable.represents_empty, rfl, Network.sound_empty, rfl⟩
    fun b s h p _ => h.succeeds_add p

end TableRuleset

/-- The rule set of rules text. -/
def ofText (config : Config) (text : String) : Checked RuleError TableRuleset := do
  let rules ← readRules config text
  TableRuleset.compile config rules

/-- Rules text is checked in places as it is without them; if it has no fault, it becomes the same
rule set in tables. -/
theorem ofText_cases (config : Config) (text : String) :
    (∃ e, Ruleset.ofText config text = .error e ∧ ofText config text = .error (.fault e)) ∨
      ∃ s, Ruleset.ofText config text = .ok s ∧
        Succeeds (ofText config text) fun b => b.Represents s := by
  unfold ofText Ruleset.ofText
  rw [readRules_eq]
  cases RuleText.readRules config text with
  | error e => exact .inl ⟨e, rfl, rfl⟩
  | ok rules =>
    change (∃ e, Ruleset.compile config rules = .error e ∧
      TableRuleset.compile config rules = .error (.fault e)) ∨
        ∃ s, Ruleset.compile config rules = .ok s ∧
          Succeeds (TableRuleset.compile config rules) fun b => b.Represents s
    unfold TableRuleset.compile Ruleset.compile
    rw [Checked.mapM_eq_lift (prepare_eq config)]
    cases Ruleset.checkIds [] rules with
    | error e => exact .inl ⟨e, rfl, rfl⟩
    | ok u =>
      cases rules.mapM (Ruleset.prepare config) with
      | error e => exact .inl ⟨e, rfl, rfl⟩
      | ok prepared =>
        exact .inr ⟨_, rfl, TableRuleset.succeeds_build config prepared⟩

end QueryRules.Places
