import QueryRules.Proofs.Except
import QueryRules.RuleText.Rules

/-!
# Where the faults of rules text show

- `RuleError.IsWithin count`: the error shows in one of the first `count` lines.
- `RuleError.IsOfLine count`: it does, and it is not about ids, which no line is refused for.
- `RuleText.DraftInvariant`: a property that drafts have when they begin and keep with every line
  that is added to them. `RuleText.ends_readDrafts`: the drafts of a text have it, and if there are
  none, the fault is that of a line of the text.
- `RuleText.ends_readRules`: a fault in any part of a rule shows in a line of the text.
-/

namespace QueryRules

/-- The error shows in one of the first `count` lines. -/
def RuleError.IsWithin (count : Nat) (e : RuleError) : Prop :=
  ∃ n, e.line = some n ∧ 1 ≤ n ∧ n ≤ count

/-- The fault is an id that another rule has. -/
def RuleFault.isTakenId : RuleFault → Bool
  | .duplicateId _ => true
  | _ => false

/-- The error shows in one of the first `count` lines and is not about ids. -/
def RuleError.IsOfLine (count : Nat) (e : RuleError) : Prop :=
  e.IsWithin count ∧ e.fault.isTakenId = false

namespace RuleText

open QueryRules.Text

/-- The number of one of the first `count` lines. -/
def IsLine (count n : Nat) : Prop := 1 ≤ n ∧ n ≤ count

theorem IsLine.isWithin {count n : Nat} (h : IsLine count n) (fault : RuleFault) :
    RuleError.IsWithin count ⟨some n, fault⟩ := ⟨n, rfl, h⟩

theorem IsLine.isOfLine {count n : Nat} (h : IsLine count n) {fault : RuleFault}
    (hfault : fault.isTakenId = false) : RuleError.IsOfLine count ⟨some n, fault⟩ :=
  ⟨h.isWithin fault, hfault⟩

/-! ## Drafts -/

/-- A property of drafts that holds where a draft begins and is kept by the lines that add to it,
if these are among the first `count`. -/
structure DraftInvariant (config : Config) (count : Nat) (D : Draft → Prop) : Prop where
  begin : ∀ input n, IsLine count n → D { input, line := n }
  instruction : ∀ d n line i, D d → IsLine count n → readInstruction config n line = .ok i →
    D { d with instructions := d.instructions ++ [i] }
  properties : ∀ d properties, D d → D { d with properties }

/-- Every draft that has been read has the property, and an open block begins in a line. -/
structure Reader.Holds (count : Nat) (D : Draft → Prop) (reader : Reader) : Prop where
  drafts : ∀ d ∈ reader.drafts, D d
  block : ∀ b ∈ reader.block, IsLine count b.line

variable {config : Config} {count : Nat} {D : Draft → Prop}

theorem Reader.holds_of_drafts {drafts : List Draft} (h : ∀ d ∈ drafts, D d) :
    Reader.Holds count D { drafts } := ⟨h, nofun⟩

/-- An instruction line is refused for its form or for the instruction that it names. -/
theorem readInstruction_eq_error {n : Nat} {line : List Char} {e : RuleError}
    (h : readInstruction config n line = .error e) :
    e = ⟨some n, .malformedLine (String.ofList line)⟩ ∨
      ∃ name, e = ⟨some n, .unsupportedInstruction name⟩ := by
  unfold readInstruction at h
  dsimp only at h
  split at h
  · exact .inl (Except.error.inj h).symm
  · split at h
    · exact .inl (Except.error.inj h).symm
    · split at h
      · exact nomatch h
      · exact .inr ⟨_, (Except.error.inj h).symm⟩

theorem ends_readInstruction {n : Nat} (hn : IsLine count n) (line : List Char) :
    Ends (readInstruction config n line) (fun i => readInstruction config n line = .ok i)
      (RuleError.IsOfLine count) := by
  cases hread : readInstruction config n line with
  | ok i => rfl
  | error e =>
    rcases readInstruction_eq_error hread with rfl | ⟨name, rfl⟩
    · exact hn.isOfLine rfl
    · exact hn.isOfLine rfl

section

variable (hD : DraftInvariant config count D)
include hD

theorem DraftInvariant.addProperty {n : Nat} (hn : IsLine count n) {d : Draft} (hd : D d)
    (property : String × Json) :
    Ends (addProperty n d property) D (RuleError.IsOfLine count) := by
  unfold RuleText.addProperty
  split
  · exact hn.isOfLine rfl
  · exact hD.properties d _ hd

theorem DraftInvariant.closeBlock {opened : OpenBlock} (hopened : IsLine count opened.line)
    {drafts : List Draft} (hdrafts : ∀ d ∈ drafts, D d) :
    Ends (Reader.closeBlock opened drafts) (Reader.Holds count D) (RuleError.IsOfLine count) := by
  cases drafts with
  | nil => exact hopened.isOfLine rfl
  | cons d ds =>
    obtain ⟨hd, hds⟩ := List.forall_mem_cons.1 hdrafts
    refine (Ends.mapError (P := fun _ => True) (fun _ _ => trivial)
      fun offset => hopened.isOfLine rfl).bind fun properties _ => ?_
    refine (Ends.foldlM hd fun d hd p _ => hD.addProperty hopened hd p).bind fun d hd => ?_
    exact Reader.holds_of_drafts (List.forall_mem_cons.2 ⟨hd, hds⟩)

theorem DraftInvariant.stepBlock {opened : OpenBlock} (hopened : IsLine count opened.line)
    {drafts : List Draft} (hdrafts : ∀ d ∈ drafts, D d) (line : List Char) :
    Ends (Reader.stepBlock opened drafts line) (Reader.Holds count D)
      (RuleError.IsOfLine count) := by
  unfold Reader.stepBlock
  split
  dsimp only
  split
  · refine hD.closeBlock ?_ hdrafts
    exact hopened
  · exact ⟨hdrafts, fun b hb => Option.some.inj hb ▸ hopened⟩

theorem DraftInvariant.stepRule {n : Nat} (hn : IsLine count n) {d : Draft} {drafts : List Draft}
    (hdrafts : ∀ e ∈ d :: drafts, D e) (line : List Char) :
    Ends (Reader.stepRule config n line d drafts) (Reader.Holds count D)
      (RuleError.IsOfLine count) := by
  obtain ⟨hd, hds⟩ := List.forall_mem_cons.1 hdrafts
  unfold Reader.stepRule
  split
  · exact hD.stepBlock (show IsLine count (OpenBlock.mk n []).line from hn) hdrafts _
  · refine (Ends.mapError (P := fun _ => True) (fun _ _ => trivial)
      fun fault => hn.isOfLine rfl).bind fun property _ => ?_
    refine (hD.addProperty hn hd property).bind fun d hd => ?_
    exact Reader.holds_of_drafts (List.forall_mem_cons.2 ⟨hd, hds⟩)
  · refine (ends_readInstruction hn _).bind fun i hi => ?_
    exact Reader.holds_of_drafts (List.forall_mem_cons.2 ⟨hD.instruction d n _ i hd hn hi, hds⟩)

theorem DraftInvariant.stepLine {n : Nat} (hn : IsLine count n) {drafts : List Draft}
    (hdrafts : ∀ d ∈ drafts, D d) (line : List Char) :
    Ends (Reader.stepLine config n line drafts) (Reader.Holds count D)
      (RuleError.IsOfLine count) := by
  unfold Reader.stepLine
  split
  · exact Reader.holds_of_drafts hdrafts
  · split
    · dsimp only
      split
      · exact hn.isOfLine rfl
      · exact Reader.holds_of_drafts (List.forall_mem_cons.2 ⟨hD.begin _ n hn, hdrafts⟩)
    · split
      · exact hn.isOfLine rfl
      · exact hD.stepRule hn hdrafts _

/-- One more line keeps the property of the drafts, or its fault is that of a line. -/
theorem DraftInvariant.step {n : Nat} (hn : IsLine count n) {reader : Reader}
    (h : reader.Holds count D) (line : List Char) :
    Ends (Reader.step config reader (line, n)) (Reader.Holds count D)
      (RuleError.IsOfLine count) := by
  unfold Reader.step
  split
  · rename_i opened hblock
    exact hD.stepBlock (h.block opened hblock) h.drafts _
  · exact hD.stepLine hn h.drafts _

end

/-- The drafts of a text have every property that their lines keep. If the text has none, the fault
is that of one of its lines. -/
theorem ends_readDrafts {text : String}
    (hD : DraftInvariant config (lines text.toList).length D) :
    Ends (readDrafts config text) (fun drafts => ∀ d ∈ drafts, D d)
      (RuleError.IsOfLine (lines text.toList).length) := by
  have hfold : Ends (((lines text.toList).zipIdx 1).foldlM (Reader.step config) {})
      (Reader.Holds (lines text.toList).length D)
      (RuleError.IsOfLine (lines text.toList).length) := by
    refine Ends.foldlM (Reader.holds_of_drafts nofun) fun reader h p hp => ?_
    obtain ⟨line, n⟩ := p
    have hn := List.mem_zipIdx hp
    exact hD.step ⟨hn.1, by omega⟩ h line
  refine hfold.bind fun reader h => ?_
  split
  · rename_i opened hblock
    exact (h.block opened hblock).isOfLine rfl
  · exact fun d hd => h.drafts d (List.mem_reverse.1 hd)

/-! ## Rules -/

/-- The line of a draft and those of its instructions are among the first `count`. -/
structure Draft.IsWithin (count : Nat) (d : Draft) : Prop where
  line : IsLine count d.line
  instructions : ∀ i ∈ d.instructions, IsLine count i.line

/-- An instruction is read if its line can be taken apart and names a supported kind. -/
theorem readInstruction_eq_ok_iff {n : Nat} {line : List Char} {i : DraftInstruction} :
    readInstruction config n line = .ok i ↔ ∃ name param value kind,
      cutInstruction? line = some (name, param, value) ∧
        InstructionKind.ofName? name = some kind ∧ config.supports kind ∧
          i = { kind, param := nonBlank param, value := nonBlank value, line := n } := by
  constructor
  · intro h
    unfold readInstruction at h
    dsimp only at h
    split at h
    · exact nomatch h
    · rename_i name param value hcut
      split at h
      · exact nomatch h
      · rename_i kind hkind
        split at h
        · rename_i hsupports
          exact ⟨name, param, value, kind, hcut, hkind, hsupports, (Except.ok.inj h).symm⟩
        · exact nomatch h
  · rintro ⟨name, param, value, kind, hcut, hkind, hsupports, rfl⟩
    simp only [readInstruction, hcut, hkind, if_pos hsupports]

/-- An instruction that is read has the number of its line and a supported kind. -/
theorem readInstruction_spec {n : Nat} {line : List Char} {i : DraftInstruction}
    (h : readInstruction config n line = .ok i) : i.line = n ∧ config.supports i.kind := by
  obtain ⟨name, param, value, kind, -, -, hsupports, rfl⟩ := readInstruction_eq_ok_iff.1 h
  exact ⟨rfl, hsupports⟩

theorem draftInvariant_isWithin (config : Config) (count : Nat) :
    DraftInvariant config count (Draft.IsWithin count) where
  begin _ _ hn := ⟨hn, nofun⟩
  instruction d n line i hd hn hi := by
    refine ⟨hd.line, List.forall_mem_append.2 ⟨hd.instructions, ?_⟩⟩
    rw [List.forall_mem_singleton, (readInstruction_spec hi).1]
    exact hn
  properties _ _ hd := ⟨hd.line, hd.instructions⟩

theorem Draft.IsWithin.readRule {draft : Draft} (h : draft.IsWithin count) (order : Nat) :
    Ends (readRule config draft order) (fun _ => True) (RuleError.IsWithin count) := by
  refine (Ends.mapError (P := fun _ => True) (fun _ _ => trivial)
    fun fault => h.line.isWithin _).bind fun trigger _ => ?_
  refine (Ends.mapM (Q := fun _ => True) fun d hd => ?_).bind fun is _ => trivial
  exact Ends.mapError (fun _ _ => trivial) fun fault => (h.instructions d hd).isWithin _

theorem ends_readRulesFrom {drafts : List Draft} (h : ∀ d ∈ drafts, d.IsWithin count) (order : Nat)
    (taken : List String) : Ends (readRulesFrom config order taken drafts) (fun _ => True)
      (RuleError.IsWithin count) := by
  induction drafts generalizing order taken with
  | nil => exact trivial
  | cons draft drafts ih =>
    obtain ⟨hdraft, hdrafts⟩ := List.forall_mem_cons.1 h
    refine (hdraft.readRule order).bind fun rule _ => ?_
    dsimp only
    split
    · exact hdraft.line.isWithin _
    · exact (ih hdrafts (order + 1) _).bind fun _ _ => trivial

/-- If a text has no rules, the fault shows in one of its lines. -/
theorem ends_readRules (config : Config) (text : String) :
    Ends (readRules config text) (fun _ => True)
      (RuleError.IsWithin (lines text.toList).length) :=
  ((ends_readDrafts (draftInvariant_isWithin config _)).imp (fun _ h => h) fun _ h => h.1).bind
    fun _ h => ends_readRulesFrom h 0 []

end RuleText

end QueryRules
