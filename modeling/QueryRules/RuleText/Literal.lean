import QueryRules.Rule.Fault
import QueryRules.Text.Blank

/-!
# Literals in rules text

A literal is written as its value, with a field name and a colon or several field names in braces
and a colon before it, and a star after it if it is a prefix. A backslash takes away the special
meaning of the character after it.

- `readLiteral` reads one literal.
- `cutTerms` takes a text apart at its blanks outside braces.
-/

namespace QueryRules.RuleText

open QueryRules.Text

/-- What a literal's value is written with. A backslash at the end stands for nothing. -/
inductive Mark where
  | char (c : Char)
  | star
  | nothing
  deriving DecidableEq, Repr

/-- The marks of a written value. -/
def marks : List Char → List Mark
  | [] => []
  | ['\\'] => [.nothing]
  | '\\' :: c :: cs => .char c :: marks cs
  | '*' :: cs => .star :: marks cs
  | c :: cs => .char c :: marks cs

/-- The character that a mark stands for. -/
def Mark.char? : Mark → Option Char
  | .char c => some c
  | _ => none

/-- What stands before and after the first colon without a backslash in front of it. -/
def cutAtColon? : List Char → Option (List Char × List Char)
  | [] => none
  | ':' :: cs => some ([], cs)
  | '\\' :: c :: cs => (cutAtColon? cs).map fun (a, b) => ('\\' :: c :: a, b)
  | c :: cs => (cutAtColon? cs).map fun (a, b) => (c :: a, b)

theorem cutAtColon?_eq_none {cs : List Char} (h : ':' ∉ cs) : cutAtColon? cs = none := by
  fun_induction cutAtColon? cs with
  | case1 => rfl
  | case2 => simp at h
  | case3 c cs ih => rw [ih (by simp_all)]; rfl
  | case4 c cs _ _ ih => rw [ih (by simp_all)]; rfl

theorem cutAtColon?_eq_some {cs a b : List Char} (h : cutAtColon? cs = some (a, b)) :
    cs = a ++ ':' :: b := by
  fun_induction cutAtColon? cs generalizing a with
  | case1 => exact nomatch h
  | case2 cs =>
    obtain ⟨rfl, rfl⟩ := Prod.mk.inj (Option.some.inj h)
    rfl
  | case3 c cs ih =>
    obtain ⟨⟨a', b'⟩, hcut, he⟩ := Option.map_eq_some_iff.1 h
    obtain ⟨rfl, rfl⟩ := Prod.mk.inj he
    rw [ih hcut]
    rfl
  | case4 c cs _ _ ih =>
    obtain ⟨⟨a', b'⟩, hcut, he⟩ := Option.map_eq_some_iff.1 h
    obtain ⟨rfl, rfl⟩ := Prod.mk.inj he
    rw [ih hcut]
    rfl

/-- The fields of a written literal and its written value. -/
def cutFields (raw : List Char) : Except RuleFault (FieldSet × List Char) :=
  match raw with
  | '{' :: block =>
    match cutAt? '}' block with
    | some (names, ':' :: value) =>
      let names := ((names.splitOn ',').map trim).filter (!·.isEmpty)
      .ok (.ofList (names.map String.ofList), value)
    | _ => .error (.unclosedFields (String.ofList raw))
  | raw =>
    match cutAtColon? raw with
    | some (name@(_ :: _), value) => .ok (.ofList [String.ofList (trim name)], value)
    | _ => .ok (∅, raw)

/-- The literal that a text is written as. Its words are normalized together. -/
def readLiteral (config : Config) (cs : List Char) : Except RuleFault Literal := do
  let raw := trim cs
  let (fields, written) ← cutFields raw
  let ms := marks written
  let stars := ms.count .star
  if 1 < stars then .error (.repeatedStar (String.ofList raw))
  else if stars = 1 ∧ ms.getLast? ≠ some .star then
    .error (.misplacedStar (String.ofList raw))
  else
    let value := unwords (words (ms.filterMap Mark.char?))
    let literal : Literal :=
      { value := config.normalize (String.ofList value), fields, isPrefix := stars = 1 }
    if value = [] then .error .blankLiteral else .ok literal

/-- The pieces between the blanks of a text, empty ones included. A blank in braces or behind a
backslash separates nothing; `depth` counts the open braces. -/
def cutTermsAt (depth : Nat) : List Char → List (List Char)
  | [] => [[]]
  | ['\\'] => [['\\']]
  | '\\' :: c :: cs => (cutTermsAt depth cs).modifyHead fun t => '\\' :: c :: t
  | '{' :: cs => (cutTermsAt (depth + 1) cs).modifyHead ('{' :: ·)
  | '}' :: cs => (cutTermsAt (depth - 1) cs).modifyHead ('}' :: ·)
  | c :: cs =>
    if isBlank c ∧ depth = 0 then [] :: cutTermsAt 0 cs
    else (cutTermsAt depth cs).modifyHead (c :: ·)

/-- The written terms of a text. -/
def cutTerms (cs : List Char) : List (List Char) := (cutTermsAt 0 cs).filter (!·.isEmpty)

/-- The literals that the terms of a text are written as. -/
def readLiterals (config : Config) (cs : List Char) : Except RuleFault (List Literal) :=
  (cutTerms cs).mapM (readLiteral config)

end QueryRules.RuleText
