import QueryRules.Proofs.Places.Checked
import QueryRules.Text.Reading

/-!
# Slices of text

A place of a text is an offset in bytes of its UTF-8.

- `Text.splitAtByte?` takes a text apart at a place, if that is inside the text and between two
  characters (`Text.exists_splitAtByte?_iff`).
- `Places.slice` is the text between two places; `Places.slice_append` says that a part of a text is
  the slice from where it begins to where it ends.
-/

namespace QueryRules

namespace Text

theorem byteSize_append (cs ds : List Char) : byteSize (cs ++ ds) = byteSize cs + byteSize ds := by
  induction cs with
  | nil => simp [byteSize]
  | cons c cs ih => rw [List.cons_append, byteSize, byteSize, ih, Nat.add_assoc]

theorem byteSize_concat (cs : List Char) (c : Char) :
    byteSize (cs ++ [c]) = byteSize cs + c.utf8Size := byteSize_append cs [c]

theorem byteSize_pos {cs : List Char} (h : cs ≠ []) : 0 < byteSize cs := by
  obtain ⟨c, cs, rfl⟩ := List.exists_cons_of_ne_nil h
  exact Nat.add_pos_left c.utf8Size_pos _

/-- A text before and after a place, if there is one character after another at the place. -/
def splitAtByte? : Nat → List Char → Option (List Char × List Char)
  | 0, cs => some ([], cs)
  | _ + 1, [] => none
  | n + 1, c :: cs =>
    if c.utf8Size ≤ n + 1 then
      (splitAtByte? (n + 1 - c.utf8Size) cs).map fun (a, b) => (c :: a, b)
    else none

theorem splitAtByte?_eq_some_iff {n : Nat} {cs a b : List Char} :
    splitAtByte? n cs = some (a, b) ↔ cs = a ++ b ∧ byteSize a = n := by
  have hpos (c : Char) : c.utf8Size ≠ 0 := Nat.ne_of_gt c.utf8Size_pos
  fun_induction splitAtByte? n cs generalizing a b with
  | case1 cs =>
    cases a with
    | nil => simp [byteSize]
    | cons c a => simp [byteSize, hpos c]
  | case2 n =>
    simp only [reduceCtorEq, false_iff, not_and]
    intro he
    obtain ⟨rfl, -⟩ := List.append_eq_nil_iff.1 he.symm
    exact nofun
  | case3 n c cs h ih =>
    cases a with
    | nil => simp [byteSize]
    | cons d a =>
      have hsize : byteSize a = n + 1 - c.utf8Size ↔ c.utf8Size + byteSize a = n + 1 := by omega
      simp only [Option.map_eq_some_iff, Prod.exists, ih, Prod.mk.injEq, List.cons.injEq,
        List.cons_append, byteSize]
      constructor
      · rintro ⟨a', b', ⟨rfl, ha⟩, ⟨rfl, rfl⟩, rfl⟩
        exact ⟨⟨rfl, rfl⟩, hsize.1 ha⟩
      · rintro ⟨⟨rfl, rfl⟩, ha⟩
        exact ⟨a, b, ⟨rfl, hsize.2 ha⟩, ⟨rfl, rfl⟩, rfl⟩
  | case4 n c cs h =>
    cases a with
    | nil => simp [byteSize]
    | cons d a =>
      simp only [reduceCtorEq, List.cons_append, List.cons.injEq, byteSize, false_iff]
      rintro ⟨⟨rfl, rfl⟩, ha⟩
      exact h (by omega)

theorem byteSize_eq_utf8ByteSize (cs : List Char) :
    byteSize cs = (String.ofList cs).utf8ByteSize := by
  induction cs with
  | nil => rfl
  | cons c cs ih =>
    rw [byteSize, ih, ← List.singleton_append, String.ofList_append, String.utf8ByteSize_append,
      ← String.singleton_eq_ofList, String.utf8ByteSize_singleton]

/-- A text can be taken apart at the valid positions of its UTF-8. -/
theorem exists_splitAtByte?_iff {n : Nat} {cs : List Char} :
    (∃ p, splitAtByte? n cs = some p) ↔ String.Pos.Raw.IsValid (String.ofList cs) ⟨n⟩ := by
  rw [String.Pos.Raw.isValid_iff_exists_append]
  constructor
  · rintro ⟨⟨a, b⟩, hp⟩
    obtain ⟨rfl, rfl⟩ := splitAtByte?_eq_some_iff.1 hp
    refine ⟨String.ofList a, String.ofList b, String.ofList_append, ?_⟩
    rw [byteSize_eq_utf8ByteSize]
    rfl
  · rintro ⟨s, t, hst, hn⟩
    refine ⟨(s.toList, t.toList), splitAtByte?_eq_some_iff.2 ⟨?_, ?_⟩⟩
    · rw [← String.toList_append, ← hst, String.toList_ofList]
    · rw [byteSize_eq_utf8ByteSize, String.ofList_toList]
      exact (congrArg String.Pos.Raw.byteIdx hn).symm

end Text

namespace Places

open Text

variable {ε : Type}

/-- The text between two places. -/
def slice (cs : List Char) (start stop : Nat) : Checked ε (List Char) :=
  match splitAtByte? stop cs with
  | none => .error .outside
  | some (front, _) =>
    match splitAtByte? start front with
    | none => .error .outside
    | some (_, part) => .ok part

/-- The text from a place on. -/
def sliceFrom (cs : List Char) (start : Nat) : Checked ε (List Char) := slice cs start (byteSize cs)

/-- The text before a place. -/
def sliceTo (cs : List Char) (stop : Nat) : Checked ε (List Char) := slice cs 0 stop

/-- A part of a text is the slice from where it begins to where it ends. -/
theorem slice_append (a part b : List Char) :
    slice (a ++ part ++ b) (byteSize a) (byteSize (a ++ part)) = (.ok part : Checked ε _) := by
  have hstop : splitAtByte? (byteSize (a ++ part)) (a ++ part ++ b) = some (a ++ part, b) :=
    splitAtByte?_eq_some_iff.2 ⟨rfl, rfl⟩
  have hstart : splitAtByte? (byteSize a) (a ++ part) = some (a, part) :=
    splitAtByte?_eq_some_iff.2 ⟨rfl, rfl⟩
  simp only [slice, hstop, hstart]

theorem sliceFrom_append (a b : List Char) :
    sliceFrom (a ++ b) (byteSize a) = (.ok b : Checked ε _) := by
  have h : slice (a ++ b ++ []) (byteSize a) (byteSize (a ++ b)) = (.ok b : Checked ε _) :=
    slice_append a b []
  simpa [sliceFrom] using h

theorem sliceTo_append (a b : List Char) :
    sliceTo (a ++ b) (byteSize a) = (.ok a : Checked ε _) := slice_append [] a b

/-- Each character of a text with its place, from a given place on. -/
def charPlaces (start : Nat) : List Char → List (Nat × Char)
  | [] => []
  | c :: cs => (start, c) :: charPlaces (start + c.utf8Size) cs

end Places

end QueryRules
