/-!
# Blank characters, words and lines

Text is worked on as a list of characters.

- `isBlank` is the Unicode property White_Space; `isLayout` holds for the four characters that may
  stand between the tokens of a condition or of a property value.
- `trim` takes the blanks off both ends, `words` takes a text apart at its blanks (`mem_words`: no
  word is empty and none holds a blank) and `lines` at its line feeds.
- `cutAt?` cuts a text at a character (`cutAt?_eq_some`: the parts and the character make up the
  text).
-/

namespace QueryRules.Text

/-- A character with the Unicode property White_Space. -/
def isBlank (c : Char) : Bool :=
  let n := c.toNat
  (9 ≤ n && n ≤ 13) || n == 0x20 || n == 0x85 || n == 0xA0 || n == 0x1680 ||
    (0x2000 ≤ n && n ≤ 0x200A) || n == 0x2028 || n == 0x2029 || n == 0x202F || n == 0x205F ||
    n == 0x3000

/-- A space or a tab. -/
def isSpace (c : Char) : Bool := c == ' ' || c == '\t'

/-- A space, a tab or an end of line. -/
def isLayout (c : Char) : Bool := isSpace c || c == '\n' || c == '\r'

/-- A text without the leading and trailing characters that satisfy `p`. -/
def trimBy (p : Char → Bool) (cs : List Char) : List Char :=
  ((cs.dropWhile p).reverse.dropWhile p).reverse

/-- A text without the blanks at either end. -/
def trim (cs : List Char) : List Char := trimBy isBlank cs

/-- The longest pieces of a text without a separator; empty pieces are left out. -/
def pieces (isSeparator : Char → Bool) (cs : List Char) : List (List Char) :=
  (cs.splitOnP isSeparator).filter (!·.isEmpty)

/-- The words of a text: its longest pieces without a blank. -/
def words (cs : List Char) : List (List Char) := pieces isBlank cs

/-- Words joined by single spaces. -/
def unwords (ws : List (List Char)) : List Char := [' '].intercalate ws

/-- The lines of a text; a line feed ends a line, and nothing after the last one is no line. A
carriage return before it stays, since whoever reads a line trims it. -/
def lines (cs : List Char) : List (List Char) :=
  let ls := cs.splitOn '\n'
  if ls.getLast? = some [] then ls.dropLast else ls

/-- What stands before and after the first `c`. -/
def cutAt? (c : Char) (cs : List Char) : Option (List Char × List Char) :=
  match cs.dropWhile (· != c) with
  | [] => none
  | _ :: rest => some (cs.takeWhile (· != c), rest)

theorem isBlank_of_isLayout {c : Char} (h : isLayout c) : isBlank c := by
  simp only [isLayout, isSpace, Bool.or_eq_true, beq_iff_eq] at h
  rcases h with ((rfl | rfl) | rfl) | rfl <;> decide

theorem mem_splitOnP {p : Char → Bool} {cs w : List Char} (h : w ∈ cs.splitOnP p) :
    ∀ c ∈ w, p c = false := by
  induction cs generalizing w with
  | nil => simp_all
  | cons d cs ih =>
    rw [List.splitOnP_cons_eq_if_modifyHead] at h
    split at h
    · rcases List.mem_cons.1 h with rfl | h
      · simp
      · exact ih h
    · rename_i hd
      cases hs : cs.splitOnP p with
      | nil => simp [hs] at h
      | cons v vs =>
        rw [hs, List.modifyHead_cons, List.mem_cons] at h
        rcases h with rfl | h
        · intro c hc
          rcases List.mem_cons.1 hc with rfl | hc
          · simpa using hd
          · exact ih (by simp [hs]) c hc
        · exact ih (by simp [hs, h])

theorem mem_pieces {p : Char → Bool} {cs w : List Char} (h : w ∈ pieces p cs) :
    w ≠ [] ∧ ∀ c ∈ w, p c = false := by
  simp only [pieces, List.mem_filter, Bool.not_eq_true', List.isEmpty_eq_false_iff] at h
  exact ⟨h.2, mem_splitOnP h.1⟩

/-- A word is never empty and holds no blank. -/
theorem mem_words {cs w : List Char} (h : w ∈ words cs) :
    w ≠ [] ∧ ∀ c ∈ w, isBlank c = false := mem_pieces h

theorem cutAt?_eq_some {c : Char} {cs a b : List Char} (h : cutAt? c cs = some (a, b)) :
    cs = a ++ c :: b ∧ c ∉ a := by
  induction cs generalizing a with
  | nil => simp [cutAt?] at h
  | cons d cs ih =>
    by_cases hd : d = c
    · subst hd
      simp_all [cutAt?]
    · have hd' : (d != c) = true := by simpa using hd
      simp only [cutAt?, List.dropWhile_cons, hd', if_true, List.takeWhile_cons] at h
      cases hr : cs.dropWhile (· != c) with
      | nil => simp [hr] at h
      | cons e rest =>
        simp only [hr, Option.some.injEq, Prod.mk.injEq] at h
        obtain ⟨rfl, rfl⟩ := h
        have := ih (a := cs.takeWhile (· != c)) (by simp [cutAt?, hr])
        refine ⟨by simpa using this.1, ?_⟩
        simp only [List.mem_cons, not_or]
        exact ⟨fun h => hd h.symm, this.2⟩

end QueryRules.Text
