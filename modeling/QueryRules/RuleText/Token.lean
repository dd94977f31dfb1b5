import QueryRules.Text.Reading

/-!
# Tokens of conditions

- `Token` is a parenthesis or a word; a blank that is no layout is a token of its own, which no
  condition admits.
- `tokens` takes a text apart, with the offset of each token in bytes.
-/

namespace QueryRules.RuleText

open QueryRules.Text

/-- A token of a condition. -/
inductive Token where
  | opening
  | closing
  | word (w : List Char)
  | blank
  deriving DecidableEq, Repr

/-- A token with its offset in bytes. -/
structure Placed where
  token : Token
  offset : Nat
  deriving DecidableEq, Repr

/-- A character that words are made of. -/
def isWordChar (c : Char) : Bool := !isBlank c && c != '(' && c != ')'

/-- The tokens of a text that begins at an offset. Words are as long as possible. -/
def tokensAt (start : Nat) : List Char → List Placed
  | [] => []
  | c :: cs =>
    let rest := tokensAt (start + c.utf8Size) cs
    if isLayout c then rest
    else if isBlank c then ⟨.blank, start⟩ :: rest
    else if c = '(' then ⟨.opening, start⟩ :: rest
    else if c = ')' then ⟨.closing, start⟩ :: rest
    else match cs, rest with
      | d :: _, ⟨.word w, n⟩ :: rest =>
        if isWordChar d then ⟨.word (c :: w), start⟩ :: rest
        else ⟨.word [c], start⟩ :: ⟨.word w, n⟩ :: rest
      | _, rest => ⟨.word [c], start⟩ :: rest

/-- The tokens of a text. -/
def tokens (cs : List Char) : List Placed := tokensAt 0 cs

/-- The operators of conditions. -/
def andWord : List Char := ['A', 'N', 'D']

/-- The word for a disjunction. -/
def orWord : List Char := ['O', 'R']

/-- The word for a negation. -/
def notWord : List Char := ['N', 'O', 'T']

/-- A word that combines conditions. -/
def isOperator (w : List Char) : Bool := w == andWord || w == orWord || w == notWord

/-- The token makes a text a condition. -/
def Token.isConditional : Token → Bool
  | .opening => true
  | .closing => true
  | .word w => isOperator w
  | .blank => false

end QueryRules.RuleText
