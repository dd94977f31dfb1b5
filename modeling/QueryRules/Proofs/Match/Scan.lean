import QueryRules.Match.Action
import QueryRules.Proofs.Match.Notify
import QueryRules.Proofs.Match.Walk

/-!
# What a scan comes across

- `Sequence.walksFrom`: the walks of a sequence that begin at one position, over its terms.
- `Ruleset.runBefore`: the run of the circuit once the positions before some position have been
  scanned. It depends only on what the walks report (`Ruleset.reportsAt`).
- `Ruleset.events`: the actions of phrases and the conditions that come to hold, in the order in
  which a scan comes across them.
- `Ruleset.scan_eq`: a scan records the events one after the other and then sorts the actions.
-/

namespace QueryRules

/-- The normalized value of a term. -/
def Config.word (config : Config) (t : Candidate) : List Char := (config.normalize t.value).toList

/-- The walks of a sequence that begin at a position. -/
def Sequence.walksFrom (sequence : Sequence) (word : Candidate → List Char) (start : Nat) :
    List (Walk Candidate) := walks word (sequence.positions.drop start)

/-- The positions of a walk that begins at `start`. -/
def Walk.span {β : Type} (w : Walk β) (start : Nat) : Span := ⟨start, start + w.taken.length⟩

namespace Ruleset

variable (s : Ruleset) (sequence : Sequence)

/-- The targets that the trie stores for a walk. -/
def targetsOf (w : Walk Candidate) : List Target := s.trie.targets w.rest.isSome w.text

/-- The literal behind a target, if it accepts the fields of the terms. -/
def literal? (terms : List Candidate) : Target → Option Nat
  | .rule _ => none
  | .literal id => if (s.register.literal? id).any (allowsFields [·] terms) then some id else none

/-- What a walk from a position reports to the run of the circuit. -/
def reports (start : Nat) (w : Walk Candidate) : List (Nat × Span) :=
  ((s.targetsOf w).filterMap (s.literal? w.taken)).map fun id => (id, w.span start)

/-- The rules whose phrases a walk meets. -/
def rulesOf (w : Walk Candidate) : List Rule := (s.targetsOf w).filterMap (s.phraseRule? w.taken)

/-- The action of the phrases that a walk from a position meets. -/
def phraseAction? (start : Nat) (w : Walk Candidate) : Option Action :=
  if (s.rulesOf w).isEmpty then none
  else some
    { rules := s.rulesOf w, terms := w.taken, start, stop := start + w.taken.length
      suffix := w.rest.map String.ofList }

/-- The walks that a scan tries at a position. -/
def walksAt (start : Nat) : List (Walk Candidate) := sequence.walksFrom s.config.word start

/-- What is reported to the run of the circuit at a position. -/
def reportsAt (start : Nat) : List (Nat × Span) :=
  (s.walksAt sequence start).flatMap (s.reports start)

/-- The actions of phrases that begin at a position. -/
def phraseActionsAt (start : Nat) : List Action :=
  (s.walksAt sequence start).filterMap (s.phraseAction? start)

/-! ## Hits and walks -/

/-- The terms that a walk over numbered alternatives takes, looked up by their numbers. -/
theorem filterMap_zip_taken {word : Candidate → List Char} {positions : List (List Candidate)}
    {w : Walk (Candidate × Nat)}
    (h : w ∈ walks (word ∘ Prod.fst) (positions.map List.zipIdx)) :
    (positions.zip (w.taken.map Prod.snd)).filterMap (fun p => p.1[p.2]?) =
      w.taken.map Prod.fst := by
  induction positions generalizing w with
  | nil => simp [walks] at h
  | cons alternatives positions ih =>
    simp only [List.map_cons, walks, List.mem_flatMap] at h
    obtain ⟨⟨t, i⟩, hm, h⟩ := h
    have ht : alternatives[i]? = some t := by simpa using List.mem_zipIdx_iff_getElem?.1 hm
    split at h
    · simp at h
    · simp only [stops, List.mem_append, List.mem_map, List.mem_singleton] at h
      rcases h with (⟨p, -, rfl⟩ | rfl) | ⟨w', hw, rfl⟩
      · simp [ht]
      · simp [ht]
      · simpa [Walk.cons, ht] using ih hw

/-- The walks over the numbered words of the alternatives and those over the alternatives are the
walks over the numbered alternatives. -/
theorem walks_numbered (start : Nat) :
    walks Prod.fst (((s.words sequence).drop start).map List.zipIdx) =
        (walks (s.config.word ∘ Prod.fst)
          ((sequence.positions.drop start).map List.zipIdx)).map
            (Walk.map (Prod.map s.config.word id)) ∧
      s.walksAt sequence start =
        (walks (s.config.word ∘ Prod.fst)
          ((sequence.positions.drop start).map List.zipIdx)).map (Walk.map Prod.fst) := by
  constructor
  · have hwords : ((s.words sequence).drop start).map List.zipIdx =
        ((sequence.positions.drop start).map List.zipIdx).map
          (List.map (Prod.map s.config.word id)) := by
      rw [words, ← List.map_drop, List.map_map, List.map_map]
      congr 1
      funext alternatives
      exact List.zipIdx_map
    rw [hwords, walks_map]
    rfl
  · have hpos : sequence.positions.drop start =
        ((sequence.positions.drop start).map List.zipIdx).map (List.map Prod.fst) := by
      rw [List.map_map]
      simp [Function.comp_def]
    rw [walksAt, Sequence.walksFrom]
    conv_lhs => rw [hpos, walks_map]

/-- The literals behind targets are reported one after the other. -/
theorem foldl_notifyTarget (terms : List Candidate) (span : Span) (run : Run)
    (targets : List Target) :
    targets.foldl (s.notifyTarget terms span) run =
      run.notifyAll s.circuit
        ((targets.filterMap (s.literal? terms)).map fun id => (id, span)) := by
  induction targets generalizing run with
  | nil => rfl
  | cons target targets ih =>
    rw [List.foldl_cons, ih]
    cases target with
    | rule i => rfl
    | literal id =>
      rw [notifyTarget, List.filterMap_cons, literal?]
      cases hl : s.register.literal? id with
      | none => rfl
      | some l => cases ha : allowsFields [l] terms <;> simp [ha, Run.notifyAll]

theorem notifyAll_append (c : Circuit) (run : Run) (rs rs' : List (Nat × Span)) :
    run.notifyAll c (rs ++ rs') = (run.notifyAll c rs).notifyAll c rs' := by
  rw [Run.notifyAll, List.foldl_append]
  rfl

/-- The hit of a walk over numbered alternatives. -/
def hitOf (start : Nat) (w : Walk (Candidate × Nat)) : Trie.Hit Target :=
  ⟨s.targetsOf (w.map Prod.fst), start, w.taken.map Prod.snd, w.rest⟩

/-- A walk is a hit if the trie stores anything for it. -/
theorem hit?_eq (start : Nat) (w : Walk (Candidate × Nat)) :
    s.trie.hit? start [] (w.map (Prod.map s.config.word id)) =
      if (s.targetsOf (w.map Prod.fst)).isEmpty then none else some (s.hitOf start w) := by
  have hsnd : Prod.snd ∘ Prod.map s.config.word id = (Prod.snd : Candidate × Nat → Nat) := rfl
  simp [Trie.hit?, hitOf, targetsOf, Walk.map, hsnd]

theorem stop_hitOf (start : Nat) (w : Walk (Candidate × Nat)) :
    (s.hitOf start w).stop = start + (w.map Prod.fst).taken.length := by
  simp [hitOf, Trie.Hit.stop, Walk.map]

/-- The hit of a walk takes the terms that the walk takes. -/
theorem hitTerms_hitOf {start : Nat} {w : Walk (Candidate × Nat)}
    (h : w ∈ walks (s.config.word ∘ Prod.fst) ((sequence.positions.drop start).map List.zipIdx)) :
    hitTerms sequence (s.hitOf start w) = (w.map Prod.fst).taken := filterMap_zip_taken h

/-- The hit of a walk, if the trie stores anything for it, has the same effect as the walk. -/
theorem foldl_addHit_toList (f : Finding) {start : Nat} {w : Walk (Candidate × Nat)}
    (h : w ∈ walks (s.config.word ∘ Prod.fst) ((sequence.positions.drop start).map List.zipIdx)) :
    (s.trie.hit? start [] (w.map (Prod.map s.config.word id))).toList.foldl (s.addHit sequence) f =
      { f with
        run := f.run.notifyAll s.circuit (s.reports start (w.map Prod.fst))
        actions := f.actions ++ (s.phraseAction? start (w.map Prod.fst)).toList } := by
  rw [hit?_eq]
  split
  · rename_i he
    rw [List.isEmpty_iff] at he
    rw [reports, phraseAction?, rulesOf, he]
    simp [Run.notifyAll]
  · rw [Option.toList_some, List.foldl_cons, List.foldl_nil, addHit, s.hitTerms_hitOf sequence h,
      foldl_notifyTarget, stop_hitOf, phraseAction?]
    change (if (s.rulesOf (w.map Prod.fst)).isEmpty then _ else _) = _
    split
    · rw [Option.toList_none, List.append_nil]
      rfl
    · rfl

/-- The hits that begin at a position report what the walks from there report, and give their
actions. -/
theorem foldl_addHit (f : Finding) (start : Nat) :
    (s.trie.lookup (s.words sequence) start).foldl (s.addHit sequence) f =
      { f with
        run := f.run.notifyAll s.circuit (s.reportsAt sequence start)
        actions := f.actions ++ s.phraseActionsAt sequence start } := by
  obtain ⟨hwords, hwalks⟩ := s.walks_numbered sequence start
  rw [Trie.lookup_eq, hwords, reportsAt, phraseActionsAt, hwalks]
  generalize hws : walks (s.config.word ∘ Prod.fst)
    ((sequence.positions.drop start).map List.zipIdx) = ws
  have hmem : ∀ w ∈ ws, w ∈ walks (s.config.word ∘ Prod.fst)
      ((sequence.positions.drop start).map List.zipIdx) := fun w hw => hws ▸ hw
  clear hws hwords hwalks
  induction ws generalizing f with
  | nil => simp [Run.notifyAll]
  | cons w ws ih =>
    have hstep := s.foldl_addHit_toList sequence f (hmem w (by simp))
    have hlist : ((w :: ws).map (Walk.map (Prod.map s.config.word id))).filterMap
          (s.trie.hit? start []) =
        (s.trie.hit? start [] (w.map (Prod.map s.config.word id))).toList ++
          (ws.map (Walk.map (Prod.map s.config.word id))).filterMap (s.trie.hit? start []) := by
      rw [List.map_cons, List.filterMap_cons]
      cases s.trie.hit? start [] (w.map (Prod.map s.config.word id)) <;> rfl
    rw [hlist, List.foldl_append, hstep, ih _ fun w hw => hmem w (List.mem_cons_of_mem _ hw)]
    simp only [List.map_cons, List.flatMap_cons, notifyAll_append, List.filterMap_cons]
    cases s.phraseAction? start (w.map Prod.fst) <;> simp

/-! ## Events -/

/-- The run of the circuit once the positions before `n` have been scanned. -/
def runBefore : Nat → Run
  | 0 => .start s.circuit
  | n + 1 =>
    { (runBefore n).notifyAll s.circuit (s.reportsAt sequence n) with pending := [] }

/-- The run of the circuit once the walks from a position have been reported to it. -/
def runAt (n : Nat) : Run := (s.runBefore sequence n).notifyAll s.circuit (s.reportsAt sequence n)

/-- The conditions that come to hold at a position. -/
def metAt (n : Nat) : List MetCondition :=
  ((s.runAt sequence n).collect s.circuit sequence.size).2

/-- The conditions of which only the end of the sequence decides that they hold. -/
def metAtEnd : List MetCondition :=
  (s.runBefore sequence sequence.size).finish s.circuit sequence.size

/-- The conditions that hold, in the order in which they come to hold. -/
def metConditions : List MetCondition :=
  (List.range sequence.size).flatMap (s.metAt sequence) ++ s.metAtEnd sequence

/-- What a scan comes across at a position. -/
def eventsAt (n : Nat) : List (Action ⊕ MetCondition) :=
  (s.phraseActionsAt sequence n).map .inl ++ (s.metAt sequence n).map .inr

/-- What a scan comes across, in its order. -/
def events : List (Action ⊕ MetCondition) :=
  (List.range sequence.size).flatMap (s.eventsAt sequence) ++ (s.metAtEnd sequence).map .inr

/-- The action of a condition that holds. -/
def conditionAction (c : MetCondition) : Action where
  rules := (s.rules[c.rule]?).toList
  terms := sequence.span c.span.start c.span.stop
  start := c.span.start
  stop := c.span.stop
  suffix := none

/-- The actions and the reported rules after one more event. -/
def record (state : List Action × List Nat) : Action ⊕ MetCondition → List Action × List Nat
  | .inl a => (state.1 ++ [a], state.2)
  | .inr c =>
    if c.rule ∈ state.2 then state
    else (state.1 ++ [s.conditionAction sequence c], c.rule :: state.2)

/-- A finding in which some events have been recorded. -/
def withEvents (f : Finding) (run : Run) (es : List (Action ⊕ MetCondition)) : Finding :=
  let state := es.foldl (s.record sequence) (f.actions, f.reported)
  { run, actions := state.1, reported := state.2 }

theorem foldl_addCondition (f : Finding) (cs : List MetCondition) :
    cs.foldl (s.addCondition sequence) f = s.withEvents sequence f f.run (cs.map .inr) := by
  induction cs generalizing f with
  | nil => rfl
  | cons c cs ih =>
    rw [List.foldl_cons, ih, addCondition, withEvents, withEvents, List.map_cons, List.foldl_cons,
      record]
    split <;> rfl

theorem withEvents_append (f : Finding) (run run' : Run) (es es' : List (Action ⊕ MetCondition)) :
    s.withEvents sequence f run (es ++ es') =
      s.withEvents sequence (s.withEvents sequence f run' es) run es' := by
  rw [withEvents, withEvents, withEvents, List.foldl_append]

theorem foldl_record_inl (state : List Action × List Nat) (as : List Action) :
    (as.map .inl).foldl (s.record sequence) state = (state.1 ++ as, state.2) := by
  induction as generalizing state with
  | nil => simp
  | cons a as ih => simp [ih, record]

/-- Scanning a position records what comes across there. -/
theorem scanPosition_eq (f : Finding) (n : Nat) (h : f.run = s.runBefore sequence n) :
    s.scanPosition sequence (s.words sequence) f n =
      s.withEvents sequence f (s.runBefore sequence (n + 1)) (s.eventsAt sequence n) := by
  rw [scanPosition, foldl_addHit]
  dsimp only
  rw [foldl_addCondition, h, eventsAt, withEvents, withEvents, List.foldl_append,
    foldl_record_inl]
  rfl

/-- Scanning the positions before `n` records what comes across there. -/
theorem foldl_scanPosition (reported : List Nat) (n : Nat) :
    (List.range n).foldl (s.scanPosition sequence (s.words sequence))
        { run := .start s.circuit, reported } =
      s.withEvents sequence { run := .start s.circuit, reported } (s.runBefore sequence n)
        ((List.range n).flatMap (s.eventsAt sequence)) := by
  induction n with
  | zero => rfl
  | succ n ih =>
    rw [List.range_succ, List.foldl_append, ih, List.foldl_cons, List.foldl_nil,
      scanPosition_eq s sequence _ n rfl, List.flatMap_append, ← withEvents_append]
    simp

/-- A scan records what it comes across and sorts the actions. -/
theorem scan_eq (reported : List Nat) :
    s.scan sequence reported =
      (Action.sort ((s.events sequence).foldl (s.record sequence) ([], reported)).1,
        ((s.events sequence).foldl (s.record sequence) ([], reported)).2) := by
  rw [scan, foldl_scanPosition, foldl_addCondition, ← withEvents_append]
  rfl

/-- The action of an event. -/
def actionOf : Action ⊕ MetCondition → Action
  | .inl a => a
  | .inr c => s.conditionAction sequence c

/-- Of events whose conditions are those of different rules, those are recorded whose rules have not
been reported. -/
theorem foldl_record_of_nodup (es : List (Action ⊕ MetCondition))
    (state : List Action × List Nat)
    (h : ((es.filterMap Sum.getRight?).map MetCondition.rule).Nodup) :
    (es.foldl (s.record sequence) state).1 = state.1 ++
      (es.filter fun e => (Sum.getRight? e).all fun c => c.rule ∉ state.2).map
        (s.actionOf sequence) := by
  induction es generalizing state with
  | nil => simp
  | cons e es ih =>
    cases e with
    | inl a =>
      rw [List.foldl_cons, ih _ h, record, List.filter_cons_of_pos (by rfl)]
      simp [actionOf]
    | inr c =>
      simp only [List.filterMap_cons, Sum.getRight?_inr, List.map_cons, List.nodup_cons] at h
      rw [List.foldl_cons, ih _ h.2, record]
      split
      · rename_i hc
        simp [hc]
      · rename_i hc
        -- the rule of this condition does not come again
        have hrest :
            (es.filter fun e => (Sum.getRight? e).all fun d => d.rule ∉ c.rule :: state.2) =
            es.filter fun e => (Sum.getRight? e).all fun d => d.rule ∉ state.2 := by
          refine List.filter_congr fun e he => ?_
          cases e with
          | inl a => rfl
          | inr d =>
            have hne : d.rule ≠ c.rule := fun hd => h.1 (List.mem_map.2
              ⟨d, List.mem_filterMap.2 ⟨_, he, rfl⟩, hd⟩)
            simp [hne]
        dsimp only
        rw [hrest]
        simp [hc, actionOf]

end Ruleset

end QueryRules
