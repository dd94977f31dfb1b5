import QueryRules.Proofs.RuleText.Positions

/-!
# Rules texts joined by a line feed

Nothing is left open at the end of rules text, and rules text begins with an input. So a text can be
put behind another one, as if it were read alone.

- `Text.lines_append_newline`: the lines of joined texts.
- `Draft.shift`, `Reader.behind`: what has been read, as it is some lines further down and behind
  other drafts. `Reader.step_behind`: a line that is read does the same to it there.
- `readDrafts_joined`: the drafts of joined texts.
-/

namespace QueryRules

open QueryRules.Text

/-! ## The lines of joined texts -/

namespace Text

/-- A line feed at the end of a text ends its last line, if one is left to end. -/
theorem lines_concat_newline (cs : List Char) : lines (cs ++ ['\n']) = cs.splitOn '\n' := by
  simp [lines, List.splitOn_append_cons_self]

theorem lines_append_newline (cs ds : List Char) :
    lines (cs ++ '\n' :: ds) = lines (cs ++ ['\n']) ++ lines ds := by
  have hne : ds.splitOn '\n' ≠ [] := List.splitOn_ne_nil '\n' ds
  have hlast : (cs.splitOn '\n' ++ ds.splitOn '\n').getLast? = (ds.splitOn '\n').getLast? :=
    List.getLast?_append_of_ne_nil _ hne
  rw [lines_concat_newline]
  simp only [lines, List.splitOn_append_cons_self, hlast]
  split
  · rw [List.dropLast_append_of_ne_nil hne]
  · rfl

/-- A line feed at the end of a text gives it at most an empty line more. -/
theorem lines_concat_newline_cases (cs : List Char) :
    lines (cs ++ ['\n']) = lines cs ∨ lines (cs ++ ['\n']) = lines cs ++ [[]] := by
  rw [lines_concat_newline]
  simp only [lines]
  split
  · rename_i hlast
    obtain ⟨ls, hls⟩ := List.getLast?_eq_some_iff.1 hlast
    exact .inr (by rw [hls, List.dropLast_concat])
  · exact .inl rfl

end Text

namespace RuleText

/-! ## Drafts further down -/

/-- The instruction `k` lines further down. -/
def DraftInstruction.shift (k : Nat) (i : DraftInstruction) : DraftInstruction :=
  { i with line := i.line + k }

/-- The draft `k` lines further down. -/
def Draft.shift (k : Nat) (d : Draft) : Draft :=
  { d with line := d.line + k, instructions := d.instructions.map (DraftInstruction.shift k) }

/-- The block `k` lines further down. -/
def OpenBlock.shift (k : Nat) (b : OpenBlock) : OpenBlock := { b with line := b.line + k }

/-- What has been read, `k` lines further down and behind earlier drafts. -/
def Reader.behind (earlier : List Draft) (k : Nat) (r : Reader) : Reader where
  drafts := r.drafts.map (Draft.shift k) ++ earlier
  block := r.block.map (OpenBlock.shift k)

variable {config : Config} {earlier : List Draft} {k n : Nat}

theorem readInstruction_shift {line : List Char} {i : DraftInstruction}
    (h : readInstruction config n line = .ok i) :
    readInstruction config (n + k) line = .ok (i.shift k) := by
  obtain ⟨name, param, value, kind, hcut, hkind, hsupports, rfl⟩ := readInstruction_eq_ok_iff.1 h
  exact readInstruction_eq_ok_iff.2 ⟨name, param, value, kind, hcut, hkind, hsupports, rfl⟩

theorem addProperty_eq_ok_iff {draft draft' : Draft} {property : String × Json} :
    addProperty n draft property = .ok draft' ↔
      ¬ Dictionary.hasKey draft.properties property.1 ∧
        draft' = { draft with
          properties := Dictionary.insert property.1 property.2 draft.properties } := by
  unfold addProperty
  split
  · rename_i hkey
    exact iff_of_false nofun fun h => h.1 hkey
  · rename_i hkey
    rw [Except.ok.injEq, eq_comm, and_iff_right hkey]

theorem addProperty_shift {draft draft' : Draft} {property : String × Json}
    (h : addProperty n draft property = .ok draft') :
    addProperty (n + k) (draft.shift k) property = .ok (draft'.shift k) := by
  obtain ⟨hkey, rfl⟩ := addProperty_eq_ok_iff.1 h
  exact addProperty_eq_ok_iff.2 ⟨hkey, rfl⟩

namespace Reader

/-- A block is closed if its text is an object whose members can all be added. -/
theorem closeBlock_eq_ok_iff {opened : OpenBlock} {draft : Draft} {drafts : List Draft}
    {r : Reader} : closeBlock opened (draft :: drafts) = .ok r ↔
      ∃ properties draft', Json.readBraced (opened.text ++ ['}']) = .ok properties ∧
        properties.foldlM (addProperty opened.line) draft = .ok draft' ∧
        r = { drafts := draft' :: drafts } := by
  simp only [closeBlock, bind_eq_ok_iff, mapError_eq_ok_iff, pure, Except.pure, Except.ok.injEq,
    exists_and_left, eq_comm (a := r)]

/-- A block that can be closed belongs to a draft, so it does not matter what comes before that. -/
theorem closeBlock_behind {opened : OpenBlock} {drafts : List Draft} {r : Reader}
    (h : closeBlock opened drafts = .ok r) :
    closeBlock (opened.shift k) (drafts.map (Draft.shift k) ++ earlier) =
      .ok (r.behind earlier k) := by
  cases drafts with
  | nil => exact nomatch h
  | cons draft drafts =>
    obtain ⟨properties, draft', hread, hadd, rfl⟩ := closeBlock_eq_ok_iff.1 h
    have hstep (d : Draft) (p : String × Json) (d' : Draft)
        (hd : addProperty opened.line d p = .ok d') :
        addProperty (opened.line + k) (d.shift k) (id p) = .ok (d'.shift k) := addProperty_shift hd
    have hshift := foldlM_map hstep hadd
    rw [List.map_id] at hshift
    exact closeBlock_eq_ok_iff.2 ⟨properties, draft'.shift k, hread, hshift, rfl⟩

theorem stepBlock_behind {opened : OpenBlock} {drafts : List Draft} {line : List Char} {r : Reader}
    (h : stepBlock opened drafts line = .ok r) :
    stepBlock (opened.shift k) (drafts.map (Draft.shift k) ++ earlier) line =
      .ok (r.behind earlier k) := by
  unfold stepBlock at h ⊢
  generalize cutBlockLine line = cut at h ⊢
  obtain ⟨content, closed⟩ := cut
  cases closed with
  | true => exact closeBlock_behind h
  | false =>
    rw [← Except.ok.inj h]
    rfl

theorem stepRule_behind {line : List Char} {draft : Draft} {drafts : List Draft} {r : Reader}
    (h : stepRule config n line draft drafts = .ok r) :
    stepRule config (n + k) line (draft.shift k) (drafts.map (Draft.shift k) ++ earlier) =
      .ok (r.behind earlier k) := by
  unfold stepRule at h ⊢
  split at h
  · exact stepBlock_behind h
  · obtain ⟨property, hread, h⟩ := bind_eq_ok_iff.1 h
    obtain ⟨draft', hadd, h⟩ := bind_eq_ok_iff.1 h
    rw [← Except.ok.inj h]
    refine bind_eq_ok_iff.2 ⟨property, ?_, bind_eq_ok_iff.2 ⟨_, addProperty_shift hadd, rfl⟩⟩
    exact mapError_eq_ok_iff.2 (mapError_eq_ok_iff.1 hread)
  · obtain ⟨instruction, hread, h⟩ := bind_eq_ok_iff.1 h
    rw [← Except.ok.inj h]
    refine bind_eq_ok_iff.2 ⟨_, readInstruction_shift hread, ?_⟩
    simp [pure, Except.pure, behind, Draft.shift]

theorem stepLine_behind {line : List Char} {drafts : List Draft} {r : Reader}
    (h : stepLine config n line drafts = .ok r) :
    stepLine config (n + k) line (drafts.map (Draft.shift k) ++ earlier) =
      .ok (r.behind earlier k) := by
  unfold stepLine at h ⊢
  split at h
  · rename_i hblank
    rw [if_pos hblank, ← Except.ok.inj h]
    rfl
  · rename_i hblank
    rw [if_neg hblank]
    split at h
    · dsimp only at h ⊢
      split at h
      · exact nomatch h
      · rename_i hinput
        rw [if_neg hinput, ← Except.ok.inj h]
        rfl
    · -- only an input comes first, so the line belongs to a draft of its own text
      cases drafts with
      | nil => exact nomatch h
      | cons draft drafts => exact stepRule_behind h

/-- A line that is read does the same further down and behind other drafts. -/
theorem step_behind {r r' : Reader} {line : List Char × Nat} (h : step config r line = .ok r') :
    step config (r.behind earlier k) (line.1, line.2 + k) = .ok (r'.behind earlier k) := by
  obtain ⟨drafts, block⟩ := r
  cases block with
  | none => exact stepLine_behind h
  | some opened => exact stepBlock_behind h

theorem step_nil {r : Reader} (h : r.block = none) (n : Nat) : step config r ([], n) = .ok r := by
  obtain ⟨drafts, block⟩ := r
  obtain rfl : block = none := h
  rfl

end Reader

/-! ## Joined texts -/

/-- A text is read if its lines are and no block is left open. -/
theorem readDrafts_eq_ok_iff {text : String} {drafts : List Draft} :
    readDrafts config text = .ok drafts ↔
      ((lines text.toList).zipIdx 1).foldlM (Reader.step config) {} =
        .ok { drafts := drafts.reverse } := by
  unfold readDrafts
  rw [bind_eq_ok_iff]
  constructor
  · rintro ⟨⟨ds, block⟩, hread, h⟩
    cases block with
    | none =>
      rw [hread, ← Except.ok.inj h, List.reverse_reverse]
    | some opened => exact nomatch h
  · intro hread
    exact ⟨_, hread, congrArg Except.ok (List.reverse_reverse drafts)⟩

/-- The drafts of a text are those of its lines if a line feed ends the last of them. -/
theorem foldlM_concat_newline {text : String} {drafts : List Draft}
    (h : readDrafts config text = .ok drafts) :
    ((lines (text.toList ++ ['\n'])).zipIdx 1).foldlM (Reader.step config) {} =
      .ok { drafts := drafts.reverse } := by
  rw [readDrafts_eq_ok_iff] at h
  rcases lines_concat_newline_cases text.toList with hlines | hlines
  · rw [hlines, h]
  · rw [hlines, List.zipIdx_append, List.foldlM_append, h, List.zipIdx_singleton]
    exact bind_eq_ok_iff.2 ⟨_, rfl, bind_eq_ok_iff.2 ⟨_, Reader.step_nil rfl _, rfl⟩⟩

/-- Rules texts can be joined by a line feed. The drafts of the second text come behind those of the
first one, and their lines are counted on. -/
theorem readDrafts_joined {t₁ t₂ : String} {ds₁ ds₂ : List Draft}
    (h₁ : readDrafts config t₁ = .ok ds₁) (h₂ : readDrafts config t₂ = .ok ds₂) :
    readDrafts config (t₁ ++ "\n" ++ t₂) =
      .ok (ds₁ ++ ds₂.map (Draft.shift (lines (t₁ ++ "\n").toList).length)) := by
  have htext : (t₁ ++ "\n" ++ t₂).toList = t₁.toList ++ '\n' :: t₂.toList := by simp
  have htext₁ : (t₁ ++ "\n").toList = t₁.toList ++ ['\n'] := by simp
  rw [htext₁, readDrafts_eq_ok_iff, htext, lines_append_newline, List.zipIdx_append,
    List.foldlM_append, foldlM_concat_newline h₁]
  generalize (lines (t₁.toList ++ ['\n'])).length = k
  have hrest := foldlM_map (g := Reader.behind ds₁.reverse k) (h := Prod.map id (· + k))
    (fun _ _ _ => Reader.step_behind) (readDrafts_eq_ok_iff.1 h₂)
  rw [List.map_snd_add_zipIdx_eq_zipIdx, Nat.add_comm] at hrest
  refine hrest.trans ?_
  simp [Reader.behind]

/-- The first text ends with an open line and the second one begins with a comment. -/
theorem readDrafts_joined_comment :
    let t₁ := "# top\r\n\na =>\n  @_id: 7\n  UP(2): b"
    let t₂ := "# more\nc =>\n@\x7b\n  note: 1\n\x7d@\nDELETE\n"
    ∃ ds₁ ds₂, readDrafts {} t₁ = .ok ds₁ ∧ readDrafts {} t₂ = .ok ds₂ ∧
      readDrafts {} (t₁ ++ "\n" ++ t₂) = .ok (ds₁ ++ ds₂.map (Draft.shift 5)) ∧
      (ds₂.map (Draft.shift 5)).map (fun d => (d.line, d.instructions.map (·.line))) =
        [(7, [11])] := by
  intro t₁ t₂
  have hread₁ : (readDrafts {} t₁).map (List.map Draft.line) = .ok [3] := by decide +kernel
  have hread₂ : (readDrafts {} t₂).map (fun ds => (ds.map (Draft.shift 5)).map
      fun d => (d.line, d.instructions.map (·.line))) = .ok [(7, [11])] := by decide +kernel
  obtain ⟨ds₁, h₁, -⟩ := exists_of_map_eq_ok hread₁
  obtain ⟨ds₂, h₂, hlines⟩ := exists_of_map_eq_ok hread₂
  have hcount : (lines (t₁ ++ "\n").toList).length = 5 := by decide +kernel
  exact ⟨ds₁, ds₂, h₁, h₂, hcount ▸ readDrafts_joined h₁ h₂, hlines⟩

end RuleText

end QueryRules
