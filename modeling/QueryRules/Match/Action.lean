import QueryRules.Match.Run
import QueryRules.Query.Sequence
import QueryRules.Ruleset

/-!
# Actions

- `Action` is a match of one or more rules at some positions of a sequence. `Action.sort` puts
  actions into the order of application (`Action.pairwise_sort`, `Action.perm_sort`).
- `Ruleset.actions` finds every match in a sequence, ordered by where it starts and then by the
  smallest order of its rules; `Ruleset.scan` also keeps a rule with a condition from being reported
  for a second sequence of one request.
-/

namespace QueryRules

/-- Rules that match a sequence from `start` up to before `stop`, with the terms that they cover.
`suffix` is the end of the last term that goes beyond a prefix. -/
structure Action where
  rules : List Rule
  terms : List Candidate
  start : Nat
  stop : Nat
  suffix : Option String

/-- The smallest order among rules. -/
def Rule.lowestOrder? : List Rule → Option Nat
  | [] => none
  | r :: rs => some ((lowestOrder? rs).elim r.order fun n => if r.order < n then r.order else n)

namespace Action

/-- The smallest order among the rules. -/
def order (a : Action) : Nat := (Rule.lowestOrder? a.rules).getD 0

/-- The values of the matched terms. -/
def values (a : Action) : List String := a.terms.map Candidate.value

/-- The text of an action. -/
def text (a : Action) : String :=
  "[" ++ " ".intercalate a.values ++ "] " ++ toString a.start ++ ".." ++ toString a.stop ++
    " -> " ++ ", ".intercalate (a.rules.map Rule.label)

/-- The order of application: by start, then by the order of the rules. -/
def comesBefore (a b : Action) : Bool :=
  a.start < b.start || (a.start == b.start && a.order ≤ b.order)

/-- An action put in front of the first one that it comes before. -/
def insert (a : Action) : List Action → List Action
  | [] => [a]
  | b :: bs => if a.comesBefore b then a :: b :: bs else b :: a.insert bs

/-- Actions in the order of application; those that no order tells apart stay as they stand. -/
def sort : List Action → List Action
  | [] => []
  | a :: as => a.insert (sort as)

theorem comesBefore_iff {a b : Action} :
    a.comesBefore b ↔ a.start < b.start ∨ (a.start = b.start ∧ a.order ≤ b.order) := by
  simp [comesBefore]

theorem comesBefore_trans {a b c : Action} (h : a.comesBefore b) (h' : b.comesBefore c) :
    a.comesBefore c := by
  rw [comesBefore_iff] at *
  omega

theorem comesBefore_of_not {a b : Action} (h : ¬ a.comesBefore b) : b.comesBefore a := by
  rw [comesBefore_iff] at *
  omega

theorem perm_insert (a : Action) (as : List Action) : (a.insert as).Perm (a :: as) := by
  induction as with
  | nil => exact .refl _
  | cons b bs ih =>
    rw [insert]
    split
    · exact .refl _
    · exact (ih.cons b).trans (.swap a b bs)

/-- Sorting neither loses nor repeats an action. -/
theorem perm_sort (as : List Action) : (sort as).Perm as := by
  induction as with
  | nil => exact .refl _
  | cons a as ih => exact (perm_insert a (sort as)).trans (ih.cons a)

theorem pairwise_insert {a : Action} {as : List Action}
    (h : as.Pairwise fun b c => b.comesBefore c) :
    (a.insert as).Pairwise fun b c => b.comesBefore c := by
  induction as with
  | nil => simp [insert]
  | cons b bs ih =>
    obtain ⟨hb, hs⟩ := List.pairwise_cons.1 h
    rw [insert]
    split
    · rename_i hab
      refine List.pairwise_cons.2 ⟨fun c hc => ?_, h⟩
      rcases List.mem_cons.1 hc with rfl | hc
      · exact hab
      · exact comesBefore_trans hab (hb c hc)
    · rename_i hab
      refine List.pairwise_cons.2 ⟨fun c hc => ?_, ih hs⟩
      rcases List.mem_cons.1 ((perm_insert a bs).mem_iff.1 hc) with rfl | hc
      · exact comesBefore_of_not hab
      · exact hb c hc

/-- Sorted actions are in the order of application. -/
theorem pairwise_sort (as : List Action) : (sort as).Pairwise fun a b => a.comesBefore b := by
  induction as with
  | nil => exact .nil
  | cons a as ih => exact pairwise_insert ih

end Action

/-- What a scan has found so far: the run of the circuit, the actions, and the rules with a
condition that have been reported for the request. -/
structure Finding where
  run : Run
  actions : List Action := []
  reported : List Nat

namespace Ruleset

/-- The terms that a hit takes. -/
def hitTerms (sequence : Sequence) (hit : Trie.Hit Target) : List Candidate :=
  ((sequence.positions.drop hit.start).zip hit.choice).filterMap fun (alternatives, i) =>
    alternatives[i]?

/-- The terms have fields that the literals accept, word by word. -/
def allowsFields (literals : List Literal) (terms : List Candidate) : Bool :=
  let wanted := literals.flatMap fun l => l.words.map fun _ => l
  wanted.length ≤ terms.length && (wanted.zip terms).all fun (l, t) => l.allowsFields t.fields

/-- The rule behind a target, if its phrase accepts the fields of the terms. -/
def phraseRule? (s : Ruleset) (terms : List Candidate) : Target → Option Rule
  | .rule index => (s.rules[index]?).filter fun r =>
    match r.trigger with
    | .phrase literals => allowsFields literals terms
    | .condition .. => false
  | .literal _ => none

/-- The run with the literal behind a target reported, if it accepts the fields of the terms. -/
def notifyTarget (s : Ruleset) (terms : List Candidate) (span : Span) (run : Run) : Target → Run
  | .rule _ => run
  | .literal id =>
    match s.register.literal? id with
    | some l => if allowsFields [l] terms then run.notify s.circuit id span else run
    | none => run

/-- One hit: its phrases give an action, its literals are reported to the run. -/
def addHit (s : Ruleset) (sequence : Sequence) (f : Finding) (hit : Trie.Hit Target) : Finding :=
  let terms := hitTerms sequence hit
  let run := hit.targets.foldl (notifyTarget s terms ⟨hit.start, hit.stop⟩) f.run
  let rules := hit.targets.filterMap (s.phraseRule? terms)
  if rules.isEmpty then { f with run }
  else
    let action : Action :=
      { rules, terms, start := hit.start, stop := hit.stop
        suffix := hit.suffix.map String.ofList }
    { f with run, actions := f.actions ++ [action] }

/-- A condition that holds gives an action unless its rule has been reported before. -/
def addCondition (s : Ruleset) (sequence : Sequence) (f : Finding) (c : MetCondition) : Finding :=
  if c.rule ∈ f.reported then f
  else
    let action : Action :=
      { rules := (s.rules[c.rule]?).toList
        terms := sequence.span c.span.start c.span.stop
        start := c.span.start, stop := c.span.stop, suffix := none }
    { f with actions := f.actions ++ [action], reported := c.rule :: f.reported }

/-- The hits that begin at one position and the conditions that come to hold with them. -/
def scanPosition (s : Ruleset) (sequence : Sequence) (words : List (List (List Char)))
    (f : Finding) (start : Nat) : Finding :=
  let f := (s.trie.lookup words start).foldl (s.addHit sequence) f
  let (run, met) := f.run.collect s.circuit sequence.size
  met.foldl (s.addCondition sequence) { f with run }

/-- The normalized alternatives of every position. -/
def words (s : Ruleset) (sequence : Sequence) : List (List (List Char)) :=
  sequence.positions.map fun alternatives =>
    alternatives.map fun t => (s.config.normalize t.value).toList

/-- The actions of a sequence in the order of application, and the rules with a condition reported
so far; those reported before are left out. -/
def scan (s : Ruleset) (sequence : Sequence) (reported : List Nat) : List Action × List Nat :=
  let f : Finding := { run := .start s.circuit, reported }
  let f := (List.range sequence.size).foldl (s.scanPosition sequence (s.words sequence)) f
  let f := (f.run.finish s.circuit sequence.size).foldl (s.addCondition sequence) f
  (Action.sort f.actions, f.reported)

/-- The actions of a sequence in the order of application. -/
def actions (s : Ruleset) (sequence : Sequence) : List Action := (s.scan sequence []).1

end Ruleset

end QueryRules
