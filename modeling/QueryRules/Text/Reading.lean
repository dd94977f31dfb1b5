import QueryRules.Text.Blank

/-!
# Readings

A reading of something at the start of a list gives its value and the rest of the list, which is
shorter, or says where it stopped.

- `Reading ε σ α` is the type of readings of an `α` in a list of `σ` that can stop with an `ε`.
- `skip` passes over layout; `length_skip_le` bounds what is left.
- `offset` measures a place in bytes.
-/

namespace QueryRules.Text

/-- What was read at the start of `l` and what follows it, or why the reading stopped. -/
abbrev Reading (ε σ α : Type) (l : List σ) : Type :=
  Except ε (α × { rest : List σ // rest.length < l.length })

/-- The same reading of a longer list. -/
def Reading.weaken {ε σ α : Type} {l k : List σ} (h : k.length ≤ l.length) :
    Reading ε σ α k → Reading ε σ α l
  | .ok (a, ⟨rest, hr⟩) => .ok (a, ⟨rest, Nat.lt_of_lt_of_le hr h⟩)
  | .error e => .error e

/-- The same reading of a list with one more item in front. -/
def Reading.past {ε σ α : Type} {l : List σ} {a : σ} (r : Reading ε σ α l) :
    Reading ε σ α (a :: l) := r.weaken (Nat.le_succ l.length)

/-- The reading with another value. -/
def Reading.map {ε σ α β : Type} {l : List σ} (f : α → β) :
    Reading ε σ α l → Reading ε σ β l
  | .ok (a, rest) => .ok (f a, rest)
  | .error e => .error e

/-- A text without the layout at its start. -/
def skip (cs : List Char) : List Char := cs.dropWhile isLayout

theorem length_dropWhile_le {α : Type} (p : α → Bool) (l : List α) :
    (l.dropWhile p).length ≤ l.length := (List.dropWhile_sublist p).length_le

theorem length_skip_le (cs : List Char) : (skip cs).length ≤ cs.length :=
  length_dropWhile_le _ cs

/-- The size of a text in UTF-8. -/
def byteSize : List Char → Nat
  | [] => 0
  | c :: cs => c.utf8Size + byteSize cs

/-- The distance in bytes from the start of a text to the place where `rest` is left of it. -/
def offset (cs rest : List Char) : Nat := byteSize cs - byteSize rest

end QueryRules.Text
