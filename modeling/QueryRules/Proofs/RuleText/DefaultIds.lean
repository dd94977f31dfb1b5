import Mathlib.Data.List.Nodup
import QueryRules.Proofs.Formula
import QueryRules.Proofs.Json.Tokens
import QueryRules.Proofs.RuleText.Positions
import QueryRules.Proofs.Text.Words

/-!
# Rules without a declared id

A rule that declares no id is called after its input and its place. Inputs are free text: one may
end as another one goes on, and may hold number signs and digits itself.

- `compact_defaultId_inj`: two such ids differ as compact texts if the inputs or the places do. The
  place is what stands behind the last number sign, and strings differ between quotes.
- `sparesIds_readTrigger`, `sparesIds_readInstructions`: what is read of a rule before its id is
  looked at is refused for other faults.
- `ends_readRulesFrom_defaultId`: so no rule of a text without declared ids is refused for its id. By
  induction over the drafts; the ids taken so far belong to places before.
- `readRules_defaultIds`: the same for whole texts.
-/

namespace QueryRules.RuleText

open QueryRules.Text

/-! ## Default ids -/

/-- The digits of a number hold no number sign. -/
theorem numberSign_not_mem_toString (n : Nat) : '#' ∉ (toString n).toList := by
  intro h
  have hdigit := Nat.isDigit_of_mem_toDigits (by decide) (by decide) (Nat.toList_repr ▸ h)
  exact absurd hdigit (by decide)

theorem toString_injective : Function.Injective (toString : Nat → String) := by
  intro m n h
  have hdigits : Nat.toDigits 10 m = Nat.toDigits 10 n := by
    rw [← Nat.toList_repr, ← Nat.toList_repr]
    exact congrArg String.toList h
  have hm := Json.readDigits?_toDigits m
  rw [hdigits, Json.readDigits?_toDigits] at hm
  exact (Option.some.inj hm).symm

/-- The place stands behind the last number sign. -/
theorem defaultId_inj {input input' : String} {order order' : Nat}
    (h : defaultId input order = defaultId input' order') : input = input' ∧ order = order' := by
  have htexts := congrArg (fun s => s.toList.reverse) (Json.string.inj h)
  simp only [String.toList_append, List.reverse_append] at htexts
  obtain ⟨hdigits, hinput⟩ := (append_cons_inj
    (mt List.mem_reverse.1 (numberSign_not_mem_toString order))
    (mt List.mem_reverse.1 (numberSign_not_mem_toString order'))).1 htexts
  exact ⟨String.toList_inj.1 (List.reverse_inj.1 hinput),
    toString_injective (String.toList_inj.1 (List.reverse_inj.1 hdigits))⟩

/-- Different default ids have different compact texts. -/
theorem compact_defaultId_inj {input input' : String} {order order' : Nat}
    (h : (defaultId input order).compact = (defaultId input' order').compact) :
    input = input' ∧ order = order' := by
  have hwritten := String.ofList_injective h
  unfold defaultId at hwritten
  rw [Json.write, Json.write] at hwritten
  exact defaultId_inj (congrArg Json.string (Json.writeString_injective hwritten))

/-! ## Faults that are not about ids -/

/-- The computation does not fail because of an id. -/
def SparesIds {α : Type} (x : Except RuleFault α) : Prop :=
  Ends x (fun _ => True) fun fault => fault.isTakenId = false

section

variable {α β : Type} {x : Except RuleFault α}

theorem SparesIds.bind {f : α → Except RuleFault β} (h : SparesIds x) (hf : ∀ a, SparesIds (f a)) :
    SparesIds (x >>= f) := Ends.bind h fun a _ => hf a

theorem SparesIds.map (h : SparesIds x) (f : α → β) : SparesIds (x.map f) :=
  Ends.map h fun _ _ => trivial

theorem SparesIds.mapM {f : α → Except RuleFault β} {as : List α} (h : ∀ a, SparesIds (f a)) :
    SparesIds (as.mapM f) := (Ends.mapM fun a _ => h a).imp (fun _ _ => trivial) fun _ he => he

/-- A formula fails as one of its literals does. -/
theorem SparesIds.traverse {g : α → Except RuleFault β} (h : ∀ a, SparesIds (g a))
    (f : Formula α) : SparesIds (f.traverse g) :=
  (Formula.ends_traverse h f).imp (fun _ _ => trivial) fun _ he => he

end

variable {config : Config}

theorem sparesIds_readLiteral (cs : List Char) : SparesIds (readLiteral config cs) := by
  refine SparesIds.bind (x := cutFields (trim cs)) ?_ fun p => ?_
  · unfold cutFields
    split
    · split
      · trivial
      · rfl
    · split <;> trivial
  · dsimp only
    split
    · rfl
    · split
      · rfl
      · split
        · rfl
        · trivial

theorem sparesIds_readLiterals (cs : List Char) : SparesIds (readLiterals config cs) :=
  .mapM sparesIds_readLiteral

/-- A trigger is not refused for an id. -/
theorem sparesIds_readTrigger (text : String) : SparesIds (readTrigger config text) := by
  have hcondition (cs : List Char) : SparesIds (readCondition config cs) := by
    refine SparesIds.bind (Ends.mapError (fun _ _ => trivial) fun _ => rfl) fun raw => ?_
    refine (SparesIds.traverse (fun _ => sparesIds_readLiteral _) raw).bind fun condition => ?_
    split
    · trivial
    · rfl
  have hphrase (cs : List Char) : SparesIds (readPhrase config cs) := by
    refine (sparesIds_readLiterals cs).bind fun literals => ?_
    split
    · rfl
    · trivial
  unfold readTrigger
  dsimp only
  split
  · rfl
  · split
    · exact (hcondition _).map _
    · exact (hphrase _).map _

/-- An instruction is not refused for an id. -/
theorem sparesIds_readBody (trigger : Trigger) (d : DraftInstruction) :
    SparesIds (readBody config trigger d) := by
  have hvalue : SparesIds (requiredValue d) := by
    unfold requiredValue
    split
    · trivial
    · rfl
  have hparam : SparesIds (refuseParam d) := by
    unfold refuseParam
    split
    · rfl
    · trivial
  have hweight : SparesIds (readWeight d) := by
    unfold readWeight
    split
    · trivial
    · split
      · trivial
      · rfl
  have hquery (value : List Char) : SparesIds (readQueryText config d.kind value) := by
    unfold readQueryText
    split
    · dsimp only
      split
      · rfl
      · trivial
    · dsimp only
      split
      · trivial
      · rfl
  have hterms (terms : List Literal) : SparesIds (resolveTerms trigger terms) := by
    refine SparesIds.mapM fun term => ?_
    split
    · trivial
    · rfl
  have hboost (direction : Direction) : SparesIds (readBody.boost config d direction) :=
    hweight.bind fun _ => hvalue.bind fun _ => (hquery _).bind fun _ => trivial
  unfold readBody
  split
  · rfl
  · split
    · exact hweight.bind fun _ => hvalue.bind fun _ => (sparesIds_readLiterals _).bind fun _ => trivial
    · exact hboost .up
    · exact hboost .down
    · exact hparam.bind fun _ => hvalue.bind fun _ => (hquery _).bind fun _ => trivial
    · refine hparam.bind fun _ => ?_
      split
      · trivial
      · exact (sparesIds_readLiterals _).bind fun _ => (hterms _).bind fun _ => trivial
    · exact hvalue.bind fun _ => trivial
    · trivial

/-! ## Drafts that declare no id -/

/-- A rule without a declared id has the default one, or it is refused for another fault. -/
theorem ends_readRule_defaultId {draft : Draft}
    (h : ¬ Dictionary.hasKey draft.properties idKey) (order : Nat) :
    Ends (readRule config draft order) (fun r => r.id = defaultId draft.input order)
      fun e => e.fault.isTakenId = false := by
  have hfind : Dictionary.find? draft.properties idKey = none := by
    simpa [Dictionary.hasKey] using h
  refine ((sparesIds_readTrigger draft.input).mapError_imp fun _ he => he).bind fun trigger _ => ?_
  refine (Ends.mapM (Q := fun _ => True) fun d _ =>
    (sparesIds_readBody trigger d).mapError_imp fun _ he => he).bind fun is _ => ?_
  simp [Ends, pure, Except.pure, Rule.make, hfind]

/-- The rules of drafts without declared ids have the default ids of their inputs and places, if the
ids before them are default ids of places before. -/
theorem ends_readRulesFrom_defaultId {drafts : List Draft}
    (h : ∀ d ∈ drafts, ¬ Dictionary.hasKey d.properties idKey) {order : Nat} {taken : List String}
    (htaken : ∀ text ∈ taken, ∃ input k, k < order ∧ text = (defaultId input k).compact) :
    Ends (readRulesFrom config order taken drafts)
      (fun rules => rules.map Rule.id = (drafts.zipIdx order).map fun p => defaultId p.1.input p.2)
      fun e => e.fault.isTakenId = false := by
  induction drafts generalizing order taken with
  | nil => rfl
  | cons draft drafts ih =>
    obtain ⟨hdraft, hdrafts⟩ := List.forall_mem_cons.1 h
    refine (ends_readRule_defaultId hdraft order).bind fun r hr => ?_
    dsimp only
    split
    · -- the id has been taken by no earlier place
      rename_i hmem
      obtain ⟨input, k, hk, he⟩ := htaken _ hmem
      rw [hr] at he
      exact absurd (compact_defaultId_inj he).2 (Nat.ne_of_gt hk)
    · refine (ih hdrafts (List.forall_mem_cons.2 ⟨?_, fun text ht => ?_⟩)).bind fun rules hrules => ?_
      · exact ⟨draft.input, order, Nat.lt_succ_self _, by rw [hr]⟩
      · obtain ⟨input, k, hk, he⟩ := htaken text ht
        exact ⟨input, k, Nat.lt_succ_of_lt hk, he⟩
      · show (r :: rules).map Rule.id = _
        rw [List.map_cons, hr, hrules, List.zipIdx_cons, List.map_cons]

/-- Default ids of different places are different. -/
theorem nodup_compact_defaultIds (drafts : List Draft) :
    ((drafts.zipIdx).map fun p => (defaultId p.1.input p.2).compact).Nodup := by
  have hplaces : ((drafts.zipIdx).map Prod.snd).Nodup := by
    rw [List.zipIdx_map_snd]
    exact List.nodup_range'
  rw [List.nodup_iff_pairwise_ne, List.pairwise_map] at hplaces ⊢
  exact hplaces.imp fun hne he => hne (compact_defaultId_inj he).2

/-- If no rule of a text declares an id, the text is not refused for a repeated id, and its rules
have different ids: each is called after its input and its place. -/
theorem readRules_defaultIds {text : String} (h : ∀ drafts, readDrafts config text = .ok drafts →
      ∀ d ∈ drafts, ¬ Dictionary.hasKey d.properties idKey) :
    (∀ line id, readRules config text ≠ .error ⟨line, .duplicateId id⟩) ∧
      ∀ rules, readRules config text = .ok rules →
        (rules.map Rule.id).Nodup ∧ (rules.map fun r => r.id.compact).Nodup ∧
          ∃ drafts, readDrafts config text = .ok drafts ∧
            rules.map Rule.id = drafts.zipIdx.map fun p => defaultId p.1.input p.2 := by
  have hends : Ends (readRules config text)
      (fun rules => ∃ drafts, readDrafts config text = .ok drafts ∧
        rules.map Rule.id = drafts.zipIdx.map fun p => defaultId p.1.input p.2)
      fun e => e.fault.isTakenId = false := by
    have hdrafts : Ends (readDrafts config text) (fun _ => True)
        fun e => e.fault.isTakenId = false :=
      (ends_readDrafts (draftInvariant_isWithin config _)).imp (fun _ _ => trivial) fun _ he => he.2
    unfold readRules
    cases hread : readDrafts config text with
    | error e => exact hdrafts.of_error hread
    | ok drafts =>
      exact (ends_readRulesFrom_defaultId (h drafts hread) (by simp)).imp
        (fun rules hrules => ⟨drafts, rfl, hrules⟩) fun _ he => he
  refine ⟨fun line id he => Bool.noConfusion (hends.of_error he), fun rules hrules => ?_⟩
  obtain ⟨drafts, hread, hids⟩ := hends.of_ok hrules
  have hcompact : (rules.map fun r => r.id.compact).Nodup := by
    have hmap : rules.map (fun r => r.id.compact) = (rules.map Rule.id).map Json.compact := by simp
    rw [hmap, hids, List.map_map]
    exact nodup_compact_defaultIds drafts
  have hnodup : (rules.map Rule.id).Nodup := by
    refine List.Nodup.of_map Json.compact ?_
    rwa [List.map_map]
  exact ⟨hnodup, hcompact, drafts, hread, hids⟩

/-- Inputs that end like the ids of other rules, and one with a quote and a backslash. -/
theorem readRules_defaultIds_signs :
    let text := "a#1 =>\na =>\na#1 =>\n\"\\ =>\na#1#2 =>"
    (∀ drafts, readDrafts {} text = .ok drafts →
      ∀ d ∈ drafts, ¬ Dictionary.hasKey d.properties idKey) ∧
    ∃ rules, readRules {} text = .ok rules ∧
      rules.map Rule.label = ["a#1#0", "a#1", "a#1#2", "\"\\#3", "a#1#2#4"] ∧
      (rules.map Rule.id).Nodup ∧ (rules.map fun r => r.id.compact).Nodup ∧
      ∃ drafts, readDrafts {} text = .ok drafts ∧
        rules.map Rule.id = drafts.zipIdx.map fun p => defaultId p.1.input p.2 := by
  intro text
  have hdeclared : (readDrafts {} text).map
      (List.all · fun d => !Dictionary.hasKey d.properties idKey) = .ok true := by decide +kernel
  have hnone : ∀ drafts, readDrafts {} text = .ok drafts →
      ∀ d ∈ drafts, ¬ Dictionary.hasKey d.properties idKey := by
    intro drafts hdrafts
    rw [hdrafts] at hdeclared
    simpa using List.all_eq_true.1 (Except.ok.inj hdeclared)
  have hlabels : (readRules {} text).map (List.map Rule.label) =
      .ok ["a#1#0", "a#1", "a#1#2", "\"\\#3", "a#1#2#4"] := by decide +kernel
  obtain ⟨rules, hrules, hlabels⟩ := exists_of_map_eq_ok hlabels
  exact ⟨hnone, rules, hrules, hlabels, (readRules_defaultIds hnone).2 rules hrules⟩

end QueryRules.RuleText
