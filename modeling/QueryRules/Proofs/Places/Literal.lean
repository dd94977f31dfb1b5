import QueryRules.Proofs.Places.Slice
import QueryRules.Proofs.RuleText.Triggers

/-!
# Literals by places

Fields and terms are cut out of a text between places that a scan over its characters has found.

- `Places.findUnescaped?` finds a character without a backslash before it, `Places.splitTerms` keeps
  the place where a term has begun.
- `Places.cutFields_eq`, `Places.splitTerms_eq`, `Places.readLiterals_eq`: the slices never lie
  outside the text, and the literals are those that are read without places.
-/

namespace QueryRules

open QueryRules.Text

namespace RuleText

/-- Without a brace at the start the fields end at the first colon. -/
theorem cutFields_of_head? {raw : List Char} (h : raw.head? ≠ some '{') :
    cutFields raw = .ok (match cutAtColon? raw with
      | some (c :: name, value) => (.ofList [String.ofList (trim (c :: name))], value)
      | _ => (∅, raw)) := by
  unfold cutFields
  split
  · simp at h
  · rcases cutAtColon? raw with _ | ⟨_ | ⟨c, name⟩, value⟩ <;> rfl

end RuleText

namespace Places

/-! ## Fields -/

/-- The first place of a character without a backslash before it. -/
def findUnescapedAt? (needle : Char) (escaped : Bool) : List (Nat × Char) → Option Nat
  | [] => none
  | (i, c) :: rest =>
    if escaped then findUnescapedAt? needle false rest
    else if c = '\\' then findUnescapedAt? needle true rest
    else if c = needle then some i
    else findUnescapedAt? needle false rest

/-- The place of the first such character of a text. -/
def findUnescaped? (needle : Char) (cs : List Char) : Option Nat :=
  findUnescapedAt? needle false (charPlaces 0 cs)

/-- The first colon stands behind what is cut off before it. -/
theorem findUnescapedAt?_colon (cs : List Char) (start : Nat) :
    findUnescapedAt? ':' false (charPlaces start cs) =
      (RuleText.cutAtColon? cs).map fun p => start + byteSize p.1 := by
  fun_induction RuleText.cutAtColon? cs generalizing start with
  | case1 => rfl
  | case2 cs => simp [charPlaces, findUnescapedAt?, byteSize]
  | case3 c cs ih =>
    simp [charPlaces, findUnescapedAt?, ih, byteSize, Function.comp_def, Nat.add_assoc]
  | case4 c cs hcolon hescape ih =>
    have hc : c ≠ ':' := hcolon
    by_cases hb : c = '\\'
    · subst hb
      cases cs with
      | nil => rfl
      | cons d cs => exact absurd rfl (hescape d cs rfl)
    · simp [charPlaces, findUnescapedAt?, hc, hb, ih, byteSize, Function.comp_def, Nat.add_assoc]

/-- The fields of a written literal and its written value. -/
def cutFields (raw : List Char) : Checked RuleFault (FieldSet × List Char) :=
  if raw.head? = some '{' then .lift (RuleText.cutFields raw)
  else match findUnescaped? ':' raw with
    | some i =>
      if 0 < i then do
        let name ← sliceTo raw i
        let value ← sliceFrom raw (i + 1)
        return (.ofList [String.ofList (trim name)], value)
      else return (∅, raw)
    | none => return (∅, raw)

theorem cutFields_eq (raw : List Char) : cutFields raw = .lift (RuleText.cutFields raw) := by
  unfold cutFields
  split
  · rfl
  · rename_i hhead
    rw [findUnescaped?, findUnescapedAt?_colon, RuleText.cutFields_of_head? hhead]
    cases hcut : RuleText.cutAtColon? raw with
    | none => rfl
    | some p =>
      obtain ⟨name, value⟩ := p
      cases name with
      | nil => rfl
      | cons c name =>
        obtain rfl := RuleText.cutAtColon?_eq_some hcut
        -- the value stands behind the name and the colon
        have hname : sliceTo (c :: name ++ ':' :: value) (byteSize (c :: name)) =
            (.ok (c :: name) : Checked RuleFault _) := sliceTo_append _ _
        have hvalue : sliceFrom (c :: name ++ ':' :: value) (byteSize (c :: name) + 1) =
            (.ok value : Checked RuleFault _) := by
          have hcolon : byteSize (c :: name ++ [':']) = byteSize (c :: name) + 1 :=
            byteSize_concat _ _
          rw [← hcolon, List.append_cons]
          exact sliceFrom_append _ _
        simp only [Option.map_some, Nat.zero_add, byteSize_pos (List.cons_ne_nil c name), if_true,
          hname, hvalue]
        rfl

/-- The literal that a text is written as. -/
def readLiteral (config : Config) (cs : List Char) : Checked RuleFault Literal := do
  let raw := trim cs
  let (fields, written) ← cutFields raw
  let ms := RuleText.marks written
  let stars := ms.count .star
  if 1 < stars then .error (.fault (.repeatedStar (String.ofList raw)))
  else if stars = 1 ∧ ms.getLast? ≠ some .star then
    .error (.fault (.misplacedStar (String.ofList raw)))
  else
    let value := unwords (words (ms.filterMap RuleText.Mark.char?))
    let literal : Literal :=
      { value := config.normalize (String.ofList value), fields, isPrefix := stars = 1 }
    if value = [] then .error (.fault .blankLiteral) else .ok literal

theorem readLiteral_eq (config : Config) (cs : List Char) :
    readLiteral config cs = .lift (RuleText.readLiteral config cs) := by
  rw [readLiteral, RuleText.readLiteral, cutFields_eq, Checked.lift_bind]
  refine congrArg _ (funext fun p => ?_)
  simp only [Checked.lift_ite, Checked.lift_error, Checked.lift_ok]

/-! ## Terms -/

/-- A scan for terms: the terms so far, the place where the next one has begun, the number of open
braces, and whether a backslash stands before the next character. -/
structure TermScan where
  terms : List (List Char) := []
  start : Option Nat := none
  depth : Nat := 0
  escaped : Bool := false

/-- A term begins at a place unless it has begun already. -/
def TermScan.begin (s : TermScan) (i : Nat) : TermScan := { s with start := s.start.or (some i) }

/-- One more character. -/
def TermScan.step {ε : Type} (text : List Char) (s : TermScan) (p : Nat × Char) :
    Checked ε TermScan :=
  if s.escaped then .ok ({ s with escaped := false }.begin p.1)
  else if p.2 = '\\' then .ok ({ s with escaped := true }.begin p.1)
  else if p.2 = '{' then .ok ({ s with depth := s.depth + 1 }.begin p.1)
  else if p.2 = '}' then .ok ({ s with depth := s.depth - 1 }.begin p.1)
  else if isBlank p.2 ∧ s.depth = 0 then
    match s.start with
    | none => .ok s
    | some start => do
      let term ← slice text start p.1
      return { s with terms := s.terms ++ [term], start := none }
  else .ok (s.begin p.1)

/-- What has been found when the text is at its end. -/
def TermScan.finish {ε : Type} (text : List Char) (s : TermScan) : Checked ε (List (List Char)) :=
  match s.start with
  | none => .ok s.terms
  | some start => do
    let term ← sliceFrom text start
    return s.terms ++ [term]

/-- The written terms of a text. -/
def splitTerms {ε : Type} (text : List Char) : Checked ε (List (List Char)) := do
  (← (charPlaces 0 text).foldlM (TermScan.step text) {}).finish text

/-- The pieces of a text behind a scan. -/
def TermScan.pieces (s : TermScan) (cs : List Char) : List (List Char) :=
  match s.escaped, cs with
  | true, c :: cs => (RuleText.cutTermsAt s.depth cs).modifyHead (c :: ·)
  | _, cs => RuleText.cutTermsAt s.depth cs

/-- A character that does not end a term belongs to the one that has begun or begins with it. -/
theorem TermScan.step_cases (ε : Type) (text : List Char) (s : TermScan) (i : Nat) (c : Char)
    (rest : List Char) :
    (∃ t : TermScan, s.step text (i, c) = (.ok (t.begin i) : Checked ε _) ∧ t.terms = s.terms ∧
        t.start = s.start ∧ s.pieces (c :: rest) = (t.pieces rest).modifyHead (c :: ·)) ∨
      (s.step text (i, c) : Checked ε _) = (match s.start with
        | none => .ok s
        | some start => do
          let term ← slice text start i
          return { s with terms := s.terms ++ [term], start := none }) ∧
      s.pieces (c :: rest) = [] :: s.pieces rest := by
  obtain ⟨terms, start, depth, escaped⟩ := s
  unfold step pieces
  cases escaped with
  | true => exact .inl ⟨⟨terms, start, depth, false⟩, rfl, rfl, rfl, rfl⟩
  | false =>
    by_cases hbackslash : c = '\\'
    · subst hbackslash
      refine .inl ⟨⟨terms, start, depth, true⟩, rfl, rfl, rfl, ?_⟩
      cases rest with
      | nil => rfl
      | cons d rest => simp [RuleText.cutTermsAt_backslash, Function.comp_def]
    · simp only [Bool.false_eq_true, if_false, hbackslash,
        RuleText.cutTermsAt_cons_of_ne hbackslash]
      split
      · exact .inl ⟨⟨terms, start, depth + 1, false⟩, rfl, rfl, rfl, rfl⟩
      · split
        · exact .inl ⟨⟨terms, start, depth - 1, false⟩, rfl, rfl, rfl, rfl⟩
        · split
          · rename_i hblank
            obtain ⟨-, rfl⟩ := hblank
            exact .inr ⟨rfl, rfl⟩
          · exact .inl ⟨⟨terms, start, depth, false⟩, rfl, rfl, rfl, rfl⟩

theorem modifyHead_nil_append (l : List (List Char)) : l.modifyHead ([] ++ ·) = l := by
  cases l <;> rfl

@[simp] theorem TermScan.pieces_nil (s : TermScan) : s.pieces [] = [[]] := by
  obtain ⟨terms, start, depth, escaped⟩ := s
  cases escaped <;> rfl

/-- A scan cuts the terms off where the pieces of the text end. -/
theorem TermScan.foldlM_step {ε : Type} {text before term rest : List Char} {s : TermScan}
    (htext : text = before ++ term ++ rest)
    (hstart : s.start = if term = [] then none else some (byteSize before)) :
    ((charPlaces (byteSize (before ++ term)) rest).foldlM (TermScan.step text) s >>=
        TermScan.finish text) =
      (.ok (s.terms ++ ((s.pieces rest).modifyHead (term ++ ·)).filter (!·.isEmpty)) :
        Checked ε _) := by
  induction rest generalizing before term s with
  | nil =>
    rw [List.append_nil] at htext
    change s.finish text = _
    rw [finish, hstart, pieces_nil]
    rcases eq_or_ne term [] with rfl | hterm
    · simp
    · have hslice : sliceFrom text (byteSize before) = (.ok term : Checked ε _) :=
        htext ▸ sliceFrom_append before term
      simp only [if_neg hterm, hslice]
      simp [hterm, bind, Except.bind, pure, Except.pure]
  | cons c rest ih =>
    have hplace (front : List Char) : byteSize front + c.utf8Size = byteSize (front ++ [c]) :=
      (byteSize_concat front c).symm
    rw [charPlaces, List.foldlM_cons, hplace]
    rcases s.step_cases ε text (byteSize (before ++ term)) c rest with
      ⟨t, hstep, hterms, hbegun, hpieces⟩ | ⟨hstep, hpieces⟩
    · -- the term goes on, or begins here if there was none
      have hbegin : (t.begin (byteSize (before ++ term))).start =
          if term ++ [c] = [] then none else some (byteSize before) := by
        rw [begin, hbegun, hstart]
        rcases eq_or_ne term [] with rfl | hterm
        · simp
        · simp [hterm]
      have hrest := ih (show text = before ++ (term ++ [c]) ++ rest by simp [htext]) hbegin
      rw [hstep, List.append_assoc, hpieces, List.modifyHead_modifyHead, ← hterms]
      refine hrest.trans ?_
      simp [begin, pieces, Function.comp_def]
    · rw [hstep, hstart, hpieces, List.modifyHead_cons, List.append_nil]
      rcases eq_or_ne term [] with rfl | hterm
      · have hrest := ih (show text = before ++ [c] ++ [] ++ rest by simp [htext]) hstart
        rw [modifyHead_nil_append, List.append_nil] at hrest
        rw [List.append_nil]
        exact hrest
      · -- the blank ends the term
        have hslice : slice text (byteSize before) (byteSize (before ++ term)) =
            (.ok term : Checked ε _) := htext ▸ slice_append before term (c :: rest)
        let s' : TermScan := { s with terms := s.terms ++ [term], start := none }
        have hrest := ih (show text = before ++ term ++ [c] ++ [] ++ rest by simp [htext])
          (show s'.start = none from rfl)
        rw [modifyHead_nil_append, List.append_nil] at hrest
        simp only [if_neg hterm, hslice]
        refine hrest.trans ?_
        simp [s', hterm, pieces]

theorem splitTerms_eq {ε : Type} (text : List Char) :
    splitTerms text = (.ok (RuleText.cutTerms text) : Checked ε _) := by
  have h := @TermScan.foldlM_step ε text [] [] text {} rfl rfl
  rw [modifyHead_nil_append] at h
  exact h

/-- The literals that the terms of a text are written as. -/
def readLiterals (config : Config) (cs : List Char) : Checked RuleFault (List Literal) := do
  (← splitTerms cs).mapM (readLiteral config)

theorem readLiterals_eq (config : Config) (cs : List Char) :
    readLiterals config cs = .lift (RuleText.readLiterals config cs) := by
  rw [readLiterals, splitTerms_eq]
  exact Checked.mapM_eq_lift (readLiteral_eq config) _

end Places

end QueryRules
