import Mathlib.Data.Nat.Digits.Defs
import QueryRules.Proofs.Json.RoundTrip

/-!
# Escapes in strings

A string literal between double quotes is made of characters that stand for themselves, of escapes
with one letter and of escapes with code units in four hexadecimal digits.

- `Json.StringPart` are these parts, with their spelling and the character that each is written
  for; `Json.literal` and `Json.meaning` are the literal and the string.
- `Json.StringPart.reading?` is the character that is read. `Json.reads_part_iff` says so for one
  part before any rest of the literal, by cases on the part, and `Json.read_literal_iff` for a whole
  literal, by induction over its parts.
- `Json.read_literal_eq_meaning_iff`: a literal is read as the string that it is written for if and
  only if it has no escaped backspace, no escaped form feed and no pair of surrogates.
-/

namespace QueryRules.Json

open QueryRules.Text

/-! ## String literals -/

/-- A hexadecimal digit and the case that it is written in. -/
structure HexDigit where
  value : Fin 16
  isUpper : Bool
  deriving DecidableEq, Repr

/-- The character that a digit is written as. -/
def HexDigit.char (d : HexDigit) : Char :=
  if d.isUpper then (Nat.digitChar d.value).toUpper else Nat.digitChar d.value

/-- A number of sixteen bits in four hexadecimal digits, the highest first. -/
structure CodeUnit where
  d₃ : HexDigit
  d₂ : HexDigit
  d₁ : HexDigit
  d₀ : HexDigit
  deriving DecidableEq, Repr

namespace CodeUnit

/-- The number that four digits stand for. -/
def value (u : CodeUnit) : Nat := Nat.ofDigits 16 [u.d₀.value, u.d₁.value, u.d₂.value, u.d₃.value]

/-- The escape of a code unit. -/
def spelling (u : CodeUnit) : List Char :=
  ['\\', 'u', u.d₃.char, u.d₂.char, u.d₁.char, u.d₀.char]

/-- The first half of a pair that stands for a character beyond sixteen bits. -/
def IsHigh (u : CodeUnit) : Prop := 0xD800 ≤ u.value ∧ u.value < 0xDC00

/-- The second half of such a pair. -/
def IsLow (u : CodeUnit) : Prop := 0xDC00 ≤ u.value ∧ u.value < 0xE000

end CodeUnit

/-- The letters that may follow a backslash and the characters that they are written for. -/
def letterEscapes : List (Char × Char) :=
  [('"', '"'), ('\\', '\\'), ('/', '/'), ('b', '\x08'), ('f', '\x0c'), ('n', '\n'), ('r', '\r'),
    ('t', '\t')]

/-- A part of a string literal. -/
inductive StringPart where
  | plain (c : Char) (h : c ≠ '"' ∧ c ≠ '\\')
  | letter (e c : Char) (h : (e, c) ∈ letterEscapes)
  | unit (u : CodeUnit) (h : ¬ u.IsHigh ∧ ¬ u.IsLow)
  | pair (high low : CodeUnit) (h : high.IsHigh ∧ low.IsLow)

namespace StringPart

/-- How a part is written. -/
def spelling : StringPart → List Char
  | .plain c _ => [c]
  | .letter e _ _ => ['\\', e]
  | .unit u _ => u.spelling
  | .pair high low _ => high.spelling ++ low.spelling

/-- The character that a part is written for. -/
def meaning : StringPart → Char
  | .plain c _ => c
  | .letter _ c _ => c
  | .unit u _ => Char.ofNat u.value
  | .pair high low _ => Char.ofNat (0x10000 + (high.value - 0xD800) * 0x400 + (low.value - 0xDC00))

/-- The part is no escape of a backspace or a form feed and no pair of surrogates. -/
def IsKept : StringPart → Prop
  | .plain .. => True
  | .letter _ c _ => c ≠ '\x08' ∧ c ≠ '\x0c'
  | .unit .. => True
  | .pair .. => False

/-- The character that is read for a part, if one is. -/
def reading? : StringPart → Option Char
  | .plain c _ => some c
  | .letter e c _ => if c = '\x08' ∨ c = '\x0c' then some e else some c
  | .unit u _ => some (Char.ofNat u.value)
  | .pair .. => none

end StringPart

/-- The literal of some parts. -/
def literal (ps : List StringPart) : List Char := '"' :: (ps.flatMap StringPart.spelling ++ ['"'])

/-- The string that a literal is written for. -/
def meaning (ps : List StringPart) : String := String.ofList (ps.map StringPart.meaning)

/-! ## Reading one part -/

@[simp] theorem isHexDigit_char (d : HexDigit) : isHexDigit d.char := by
  obtain ⟨v, b⟩ := d
  revert v b
  decide

@[simp] theorem hexValue_char (d : HexDigit) : hexValue d.char = d.value := by
  obtain ⟨v, b⟩ := d
  revert v b
  decide

namespace CodeUnit

variable (u : CodeUnit)

instance : Decidable u.IsHigh := inferInstanceAs (Decidable (_ ∧ _))

instance : Decidable u.IsLow := inferInstanceAs (Decidable (_ ∧ _))

theorem value_eq : u.value =
    ((u.d₃.value * 16 + u.d₂.value) * 16 + u.d₁.value) * 16 + u.d₀.value := by
  simp only [value, Nat.ofDigits_cons, Nat.ofDigits_nil]
  omega

theorem value_lt : u.value < 0x10000 := by
  rw [value_eq]
  omega

theorem isValidChar_iff : u.value.isValidChar ↔ ¬ (u.IsHigh ∨ u.IsLow) := by
  have := u.value_lt
  unfold Nat.isValidChar IsHigh IsLow
  omega

/-- A code unit stands for a character unless it is half of a pair. -/
theorem hexChar?_eq : hexChar? u.d₃.char u.d₂.char u.d₁.char u.d₀.char =
    if u.IsHigh ∨ u.IsLow then none else some (Char.ofNat u.value) := by
  unfold hexChar?
  simp only [hexValue_char, ← value_eq]
  by_cases h : u.IsHigh ∨ u.IsLow
  · rw [if_pos h, if_neg fun hv => u.isValidChar_iff.1 hv h]
  · rw [if_neg h, if_pos (u.isValidChar_iff.2 h)]

end CodeUnit

variable {cs es rest : List Char}

/-- An escaped code unit is read as its character unless it is half of a pair. -/
theorem reads_unit_iff {u : CodeUnit} : Reads (scanString '"' (u.spelling ++ cs)) es rest ↔
    ¬ (u.IsHigh ∨ u.IsLow) ∧
      ∃ es', es = Char.ofNat u.value :: es' ∧ Reads (scanString '"' cs) es' rest := by
  have hdigits : [u.d₃.char, u.d₂.char, u.d₁.char, u.d₀.char].all isHexDigit := by simp
  unfold CodeUnit.spelling
  show Reads (scanString '"' ('\\' :: 'u' :: _ :: _ :: _ :: _ :: cs)) es rest ↔ _
  rw [scanString, if_neg (by decide), if_pos rfl]
  show Reads (if [u.d₃.char, u.d₂.char, u.d₁.char, u.d₀.char].all isHexDigit = true then _
    else _) es rest ↔ _
  rw [if_pos hdigits]
  split
  · rename_i c hc
    rw [u.hexChar?_eq, Option.ite_none_left_eq_some, Option.some.injEq] at hc
    rw [reads_weaken_iff, reads_map_iff, ← hc.2]
    simp only [hc.1, not_false_eq_true, true_and, and_comm]
  · rename_i hc
    rw [u.hexChar?_eq, ite_eq_left_iff] at hc
    have h : u.IsHigh ∨ u.IsLow := by_contra fun h => Option.some_ne_none _ (hc h)
    simp [h]

/-- A character that is no quote and no backslash is read as it is. -/
theorem reads_plain_iff {c : Char} (h : c ≠ '"' ∧ c ≠ '\\') :
    Reads (scanString '"' (c :: cs)) es rest ↔
      ∃ es', es = c :: es' ∧ Reads (scanString '"' cs) es' rest := by
  have hscan : scanString '"' (c :: cs) = ((scanString '"' cs).map (c :: ·)).past := by
    conv_lhs => unfold scanString
    rw [if_neg h.1, if_neg h.2]
  rw [hscan, reads_past_iff, reads_map_iff]
  exact exists_congr fun es' => and_comm

/-- Behind a backslash a letter is read as the character that it is written for, but for the letters
of the backspace and the form feed, which are read as they are. -/
theorem reads_letter_iff {e c : Char} (h : (e, c) ∈ letterEscapes) :
    Reads (scanString '"' ('\\' :: e :: cs)) es rest ↔ ∃ es',
      es = (if c = '\x08' ∨ c = '\x0c' then e else c) :: es' ∧
        Reads (scanString '"' cs) es' rest := by
  have hscan : scanString '"' ('\\' :: e :: cs) = ((scanString '"' cs).map
      ((if c = '\x08' ∨ c = '\x0c' then e else c) :: ·)).past.past := by
    simp only [letterEscapes, List.mem_cons, Prod.mk.injEq, List.not_mem_nil, or_false] at h
    rcases h with h | h | h | h | h | h | h | h <;> obtain ⟨rfl, rfl⟩ := h <;> rfl
  rw [hscan, reads_past_iff, reads_past_iff, reads_map_iff]
  exact exists_congr fun es' => and_comm

/-- What is read of a part is its character, if one is read, and nothing else. -/
theorem reads_part_iff {p : StringPart} : Reads (scanString '"' (p.spelling ++ cs)) es rest ↔
    ∃ c es', p.reading? = some c ∧ es = c :: es' ∧ Reads (scanString '"' cs) es' rest := by
  cases p with
  | plain c h => simpa [StringPart.spelling, StringPart.reading?] using reads_plain_iff h
  | letter e c h =>
    simpa [StringPart.spelling, StringPart.reading?, ← apply_ite some] using
      @reads_letter_iff cs es rest e c h
  | unit u h => simpa [StringPart.spelling, StringPart.reading?, h] using reads_unit_iff (u := u)
  | pair high low h =>
    have hhigh : high.IsHigh ∨ high.IsLow := .inl h.1
    rw [StringPart.spelling, List.append_assoc, reads_unit_iff]
    simp [StringPart.reading?, hhigh]

/-! ## Reading literals -/

/-- Up to the closing quote the characters of the parts are read, if each part gives one. -/
theorem reads_parts_iff {ps : List StringPart} {us : List Char} :
    Reads (scanString '"' (ps.flatMap StringPart.spelling ++ '"' :: us)) es rest ↔
      ps.map StringPart.reading? = es.map some ∧ rest = us := by
  induction ps generalizing es with
  | nil =>
    have hscan : scanString '"' ('"' :: us) = .ok ([], ⟨us, Nat.lt_succ_self _⟩) := by
      unfold scanString
      rw [if_pos rfl]
    show Reads (scanString '"' ('"' :: us)) es rest ↔ _
    rw [hscan, reads_ok_iff]
    simp
  | cons p ps ih =>
    rw [List.flatMap_cons, List.append_assoc, reads_part_iff]
    simp only [ih, List.map_cons]
    constructor
    · rintro ⟨c, es', hc, rfl, hmap, hrest⟩
      exact ⟨by rw [List.map_cons, hc, hmap], hrest⟩
    · rintro ⟨hmap, hrest⟩
      obtain ⟨c, es', rfl, hc, hes⟩ := List.map_eq_cons_iff.1 hmap.symm
      exact ⟨c, es', hc.symm, rfl, hes.symm, hrest⟩

theorem read_literal_iff {ps : List StringPart} {v : Json} : read (literal ps) = .ok v ↔
    ∃ es, ps.map StringPart.reading? = es.map some ∧ v = .string (String.ofList es) := by
  have hskip : skip (literal ps) = literal ps := rfl
  rw [read_eq_ok_iff, hskip, literal, scan]
  simp only [reads_past_iff, reads_map_iff, reads_parts_iff]
  constructor
  · rintro ⟨rest, ⟨es, ⟨hes, -⟩, rfl⟩, -⟩
    exact ⟨es, hes, rfl⟩
  · rintro ⟨es, hes, rfl⟩
    exact ⟨[], ⟨es, ⟨hes, rfl⟩, rfl⟩, rfl⟩

theorem StringPart.reading?_eq_meaning_iff {p : StringPart} :
    p.reading? = some p.meaning ↔ p.IsKept := by
  cases p with
  | plain c h => simp [reading?, meaning, IsKept]
  | letter e c h =>
    simp only [letterEscapes, List.mem_cons, Prod.mk.injEq, List.not_mem_nil, or_false] at h
    rcases h with h | h | h | h | h | h | h | h <;> obtain ⟨rfl, rfl⟩ := h <;>
      simp [reading?, meaning, IsKept]
  | unit u h => simp [reading?, meaning, IsKept]
  | pair high low h => simp [reading?, IsKept]

/-- A string literal is read as the string that it is written for if and only if none of its parts
is an escaped backspace, an escaped form feed or a pair of surrogates. -/
theorem read_literal_eq_meaning_iff (ps : List StringPart) :
    read (literal ps) = .ok (.string (meaning ps)) ↔ ∀ p ∈ ps, p.IsKept := by
  have hparts : ps.map StringPart.reading? = (ps.map StringPart.meaning).map some ↔
      ∀ p ∈ ps, p.IsKept := by
    rw [List.map_map, List.map_inj_left]
    exact forall₂_congr fun p _ => StringPart.reading?_eq_meaning_iff
  rw [read_literal_iff, ← hparts]
  constructor
  · rintro ⟨es, hes, h⟩
    rw [hes, String.ofList_injective (Json.string.inj h)]
  · intro hes
    exact ⟨_, hes, rfl⟩

/-- An escaped backspace is read as the letter b. -/
theorem read_literal_backspace :
    let ps := [StringPart.letter 'b' '\x08' (by decide)]
    literal ps = ['"', '\\', 'b', '"'] ∧ meaning ps = "\x08" ∧
      read (literal ps) = .ok (.string "b") ∧ read (literal ps) ≠ .ok (.string (meaning ps)) := by
  intro ps
  have hread : read (literal ps) = .ok (.string "b") := read_literal_iff.2 ⟨['b'], rfl, rfl⟩
  refine ⟨rfl, rfl, hread, fun h => ?_⟩
  have hstring : "b" = meaning ps := Json.string.inj (Except.ok.inj (hread.symm.trans h))
  exact absurd hstring (by decide)

end QueryRules.Json
