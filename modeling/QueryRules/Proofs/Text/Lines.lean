import Mathlib.Data.List.TakeWhile
import QueryRules.Proofs.Text.Reading

/-!
# Lines of text

- `Text.lines_ended`: lines are read back from a text in which each of them ends in a line feed.
- `Text.trim_eq_self_iff`: a text is trimmed if it neither begins nor ends with a blank;
  `Text.stopsAt_trim` says that a text does not begin with one once it has been trimmed, and
  `Text.trim_append` and `Text.trim_concat_space` are about lines put together from trimmed texts.
- `Text.cutAt?_append` and `Text.suffix_of_suffix_append_cons`: where such a line is cut, and what it
  can end in.
-/

namespace QueryRules.Text

variable {cs ds : List Char}

/-- Lines without line feeds are read back if each of them is ended by one. -/
theorem lines_ended {ls : List (List Char)} (h : ∀ l ∈ ls, '\n' ∉ l) :
    lines (ls.flatMap (· ++ ['\n'])) = ls := by
  have hsplit : (ls.flatMap (· ++ ['\n'])).splitOn '\n' = ls ++ [[]] := by
    induction ls with
    | nil => rfl
    | cons l ls ih =>
      obtain ⟨hl, hls⟩ := List.forall_mem_cons.1 h
      rw [List.flatMap_cons, List.append_assoc, List.singleton_append,
        List.splitOn_append_cons_self_of_not_mem hl, ih hls, List.cons_append]
  simp [lines, hsplit]

/-! ## Blanks at the ends -/

theorem dropWhile_eq_self_iff {p : Char → Bool} : cs.dropWhile p = cs ↔ StopsAt p cs := by
  rw [List.dropWhile_eq_self_iff]
  cases cs <;> simp

/-- A text is trimmed if it neither begins nor ends with a blank. -/
theorem trim_eq_self_iff : trim cs = cs ↔ StopsAt isBlank cs ∧ StopsAt isBlank cs.reverse := by
  simp only [← dropWhile_eq_self_iff]
  constructor
  · intro h
    have hle : cs.length ≤ (cs.dropWhile isBlank).length := calc
      cs.length = (trim cs).length := by rw [h]
      _ = ((cs.dropWhile isBlank).reverse.dropWhile isBlank).length := List.length_reverse
      _ ≤ (cs.dropWhile isBlank).reverse.length := length_dropWhile_le _ _
      _ = (cs.dropWhile isBlank).length := List.length_reverse
    have hfront : cs.dropWhile isBlank = cs :=
      (List.dropWhile_suffix isBlank).eq_of_length_le hle
    refine ⟨hfront, ?_⟩
    rw [trim, trimBy, hfront] at h
    rw [← List.reverse_inj, h, List.reverse_reverse]
  · rintro ⟨hfront, hback⟩
    rw [trim, trimBy, hfront, hback, List.reverse_reverse]

/-- What is left of a text without the blanks at its ends does not begin with one. -/
theorem stopsAt_trim (cs : List Char) : StopsAt isBlank (trim cs) := by
  have hfront : trim cs <+: cs.dropWhile isBlank := by
    have hback := List.dropWhile_suffix isBlank (l := (cs.dropWhile isBlank).reverse)
    rw [← List.reverse_reverse (cs.dropWhile isBlank)]
    exact List.reverse_prefix.2 hback
  obtain ⟨rest, hrest⟩ := hfront
  rcases eq_or_ne (trim cs) [] with hnil | hne
  · rw [hnil]
    exact stopsAt_nil _
  · have hstops : StopsAt isBlank (trim cs ++ rest) := by
      rw [hrest]
      intro c hc
      have hhead := List.head?_dropWhile_not isBlank cs
      rwa [Option.mem_def.1 hc] at hhead
    exact (stopsAt_append hne).1 hstops

/-- A line that begins as one trimmed text and ends as another is trimmed. -/
theorem trim_append (hcs : cs ≠ []) (hds : ds ≠ []) (hfront : StopsAt isBlank cs)
    (hback : StopsAt isBlank ds.reverse) : trim (cs ++ ds) = cs ++ ds := by
  have hrev : ds.reverse ≠ [] := by simpa using hds
  rw [trim_eq_self_iff, List.reverse_append, stopsAt_append hcs, stopsAt_append hrev]
  exact ⟨hfront, hback⟩

theorem trim_cons_space (h : trim cs = cs) : trim (' ' :: cs) = cs := by
  rw [trim, trimBy, List.dropWhile_cons_of_pos (by decide)]
  exact h

theorem trim_concat_space (h : trim cs = cs) : trim (cs ++ [' ']) = cs := by
  rcases eq_or_ne cs [] with rfl | hne
  · decide
  · obtain ⟨hfront, hback⟩ := trim_eq_self_iff.1 h
    rw [trim, trimBy, dropWhile_eq_self_iff.2 ((stopsAt_append hne).2 hfront), List.reverse_append,
      List.reverse_singleton, List.singleton_append, List.dropWhile_cons_of_pos (by decide),
      dropWhile_eq_self_iff.2 hback, List.reverse_reverse]

/-! ## Cuts and endings -/

theorem cutAt?_append {c : Char} (h : c ∉ cs) : cutAt? c (cs ++ c :: ds) = some (cs, ds) := by
  have hcs : ∀ d ∈ cs, (d != c) = true := by
    intro d hd
    rw [bne_iff_ne]
    rintro rfl
    exact h hd
  have hstop : StopsAt (· != c) (c :: ds) := stopsAt_cons.2 (by simp)
  simp only [cutAt?, dropWhile_append_stop hcs hstop, takeWhile_append_stop hcs hstop]

theorem isSuffixOf?_eq_none_iff : ds.isSuffixOf? cs = none ↔ ¬ ds <:+ cs := by
  rw [← List.isSuffixOf_iff_suffix, ← List.isSome_isSuffixOf?_eq_isSuffixOf, Bool.not_eq_true,
    Option.isSome_eq_false_iff, Option.isNone_iff_eq_none]

/-- An ending that does not hold a character is one of what follows it. -/
theorem suffix_of_suffix_append_cons {c : Char} {front : List Char} (hc : c ∉ ds)
    (h : ds <:+ front ++ c :: cs) : ds <:+ cs := by
  have hcons : c :: cs <:+ front ++ c :: cs := List.suffix_append _ _
  rcases List.suffix_or_suffix_of_suffix h hcons with h | h
  · rcases List.suffix_cons_iff.1 h with rfl | h
    · exact absurd List.mem_cons_self hc
    · exact h
  · exact absurd (h.subset List.mem_cons_self) hc

end QueryRules.Text
