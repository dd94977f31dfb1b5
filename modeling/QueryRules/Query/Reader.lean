import QueryRules.Query.Tree
import QueryRules.Text.Blank

/-!
# Reading a query

A query is written as words. A leading plus or minus says that the word must or must not occur, and
a name with a colon after it restricts the word to a field.

- `Query.ofWords` builds the query of a text, one group for each word; `QueryFault` says why a text
  is none.
-/

namespace QueryRules

open QueryRules.Text

/-- Why a text is no query. -/
inductive QueryFault where
  | empty
  | invalidToken (token : String) (reason : String)
  deriving DecidableEq, Repr

/-- The message for a text that is no query. -/
def QueryFault.message : QueryFault → String
  | .empty => "query text is empty"
  | .invalidToken token reason => "invalid token '" ++ token ++ "': " ++ reason

namespace Query

/-- A word without its leading sign, and how it takes part in the query. -/
def splitMark : List Char → Occur × List Char
  | '+' :: cs => (.must, cs)
  | '-' :: cs => (.mustNot, cs)
  | cs => (.should, cs)

/-- The term that a word asks for. The first colon ends a field name, unless nothing stands before
it. -/
def readWord (word : List Char) : Except QueryFault (Occur × Term) :=
  let (occur, cs) := splitMark word
  let fault (reason : String) := QueryFault.invalidToken (String.ofList word) reason
  match cutAt? ':' cs with
  | some (field@(_ :: _), value) =>
    if value = [] then .error (fault "missing value after field")
    else
      .ok (occur, { value := String.ofList value, fields := .ofList [String.ofList field] })
  | _ =>
    if cs = [] then .error (fault "operator without a term")
    else .ok (occur, { value := String.ofList cs })

/-- The query that the words of a text ask for. -/
def ofWords (text : String) : Except QueryFault Query := do
  let terms ← (words text.toList).mapM readWord
  if terms = [] then .error .empty else .ok (ofTerms terms)

end Query

end QueryRules
