import QueryRules.Proofs.Json.Layout

/-!
# Structured values read back

- `Json.IsPlain.read_of_spaced`: a plain value is read from its tokens with any layout around them.
  Its compact text is made of them without layout (`Json.IsPlain.exists_tokenized`).
- `Json.read_written`: so a plain value is read back from its compact text, and from that text with
  layout between the tokens and commas after the last items and members.
- `Json.readBraced_writeMembers`: the members of such an object are read back from the text between
  its braces.
- `Json.IsPlain.newline_not_mem`, `Json.getLast?_writeMembers_ne`: the compact text is one line and
  does not end in a backslash.
-/

namespace QueryRules.Json

open QueryRules.Text

/-! ## The tokens of compact texts -/

theorem exists_tokenizedItems {items : List Json}
    (h : ∀ v ∈ items, ∃ ts, Tokenized v ts ∧ ts.flatten = write v) :
    ∃ ts, TokenizedItems items ts ∧ ts.flatten = writeItems items := by
  induction items with
  | nil => exact ⟨[], .nil, by rw [writeItems]; rfl⟩
  | cons v items ih =>
    obtain ⟨⟨ts, hts, htext⟩, hitems⟩ := List.forall_mem_cons.1 h
    cases items with
    | nil => exact ⟨ts, .last hts, by rw [htext, writeItems]⟩
    | cons w items =>
      obtain ⟨us, hus, htext'⟩ := ih hitems
      exact ⟨_, .cons hts hus, by simp [htext, htext', writeItems]⟩

theorem exists_tokenizedMembers {members : List (String × Json)}
    (h : ∀ m ∈ members, ∃ ts, Tokenized m.2 ts ∧ ts.flatten = write m.2) :
    ∃ ts, TokenizedMembers members ts ∧ ts.flatten = writeMembers members := by
  induction members with
  | nil => exact ⟨[], .nil, by rw [writeMembers]; rfl⟩
  | cons m members ih =>
    obtain ⟨⟨ts, hts, htext⟩, hmembers⟩ := List.forall_mem_cons.1 h
    cases members with
    | nil => exact ⟨_, .last hts, by simp [htext, writeMembers]⟩
    | cons m' members =>
      obtain ⟨us, hus, htext'⟩ := ih hmembers
      exact ⟨_, .cons hts hus, by simp [htext, htext', writeMembers]⟩

/-- The compact text of a plain value is made of tokens that it may be written with. -/
theorem IsPlain.exists_tokenized {v : Json} (h : IsPlain v) :
    ∃ ts, Tokenized v ts ∧ ts.flatten = write v := by
  induction h with
  | null => exact ⟨_, .null, List.flatten_singleton⟩
  | bool b => exact ⟨_, .bool b, List.flatten_singleton⟩
  | int => exact ⟨_, .int _, List.flatten_singleton⟩
  | string => exact ⟨_, .string _, by rw [write, List.flatten_singleton]⟩
  | array _ ih =>
    obtain ⟨ts, hts, htext⟩ := exists_tokenizedItems ih
    exact ⟨_, .array hts, by simp [htext, write]⟩
  | object _ _ _ ih =>
    obtain ⟨ts, hts, htext⟩ := exists_tokenizedMembers ih
    exact ⟨_, .object hts, by simp [htext, write]⟩

/-! ## The shape of compact texts -/

theorem newline_not_mem_writeItems {items : List Json} (h : ∀ v ∈ items, '\n' ∉ write v) :
    '\n' ∉ writeItems items := by
  induction items with
  | nil => simp [writeItems]
  | cons v items ih =>
    obtain ⟨hv, hitems⟩ := List.forall_mem_cons.1 h
    cases items with
    | nil => simpa [writeItems] using hv
    | cons w items => simpa [writeItems] using ⟨hv, ih hitems⟩

theorem newline_not_mem_writeMembers {members : List (String × Json)}
    (h : ∀ m ∈ members, '\n' ∉ write m.2) : '\n' ∉ writeMembers members := by
  induction members with
  | nil => simp [writeMembers]
  | cons m members ih =>
    obtain ⟨hv, hmembers⟩ := List.forall_mem_cons.1 h
    cases members with
    | nil => simpa [writeMembers, newline_not_mem_writeString] using hv
    | cons m' members => simpa [writeMembers, newline_not_mem_writeString] using ⟨hv, ih hmembers⟩

/-- A compact text is one line. -/
theorem IsPlain.newline_not_mem {v : Json} (h : IsPlain v) : '\n' ∉ write v := by
  induction h with
  | null => simp [write]
  | bool b => cases b <;> simp [write]
  | int =>
    rw [write]
    exact not_mem_toString (by decide) (by decide)
  | string => rw [write]; exact newline_not_mem_writeString _
  | array _ ih => simpa [write] using newline_not_mem_writeItems ih
  | object _ _ _ ih => simpa [write] using newline_not_mem_writeMembers ih

theorem getLast?_append_cons_ne {c d : Char} (hd : d ≠ c) {cs ds : List Char}
    (h : ds.getLast? ≠ some c) : (cs ++ d :: ds).getLast? ≠ some c := by
  cases hds : ds.getLast? with
  | none => simpa [hds, List.getLast?_cons] using hd
  | some e => simpa [hds, List.getLast?_cons] using h

/-- A compact text does not end in a backslash. -/
theorem IsPlain.getLast?_write_ne {v : Json} (h : IsPlain v) :
    (write v).getLast? ≠ some '\\' := by
  cases h with
  | null => simp [write]
  | bool b => cases b <;> simp [write]
  | int =>
    rw [write]
    intro hc
    exact not_mem_toString (by decide) (by decide) (List.mem_of_getLast? hc)
  | string =>
    rw [write, writeString, ← List.cons_append]
    exact getLast?_append_cons_ne (by decide) (by simp)
  | array =>
    rw [write, ← List.cons_append]
    exact getLast?_append_cons_ne (by decide) (by simp)
  | object =>
    rw [write, ← List.cons_append]
    exact getLast?_append_cons_ne (by decide) (by simp)

theorem getLast?_writeMembers_ne {members : List (String × Json)}
    (h : ∀ m ∈ members, IsPlain m.2) : (writeMembers members).getLast? ≠ some '\\' := by
  induction members with
  | nil => simp [writeMembers]
  | cons m members ih =>
    obtain ⟨hv, hmembers⟩ := List.forall_mem_cons.1 h
    obtain ⟨k, v⟩ := m
    cases members with
    | nil =>
      rw [writeMembers]
      exact getLast?_append_cons_ne (by decide) hv.getLast?_write_ne
    | cons m' members =>
      rw [writeMembers, ← List.cons_append, ← List.append_assoc]
      exact getLast?_append_cons_ne (by decide) (ih hmembers)

/-! ## Whole texts -/

/-- A text is read as a value if that leaves nothing but layout. -/
theorem read_eq_ok_iff {cs : List Char} {v : Json} :
    read cs = .ok v ↔ ∃ rest, Reads (scan (skip cs)) v rest ∧ skip rest = [] := by
  unfold read
  rcases scan (skip cs) with e | ⟨w, rest, hlt⟩
  · simp
  · simp only [reads_ok_iff]
    cases hrest : skip rest with
    | nil =>
      constructor
      · intro h
        exact ⟨rest, ⟨(Except.ok.inj h).symm, rfl⟩, hrest⟩
      · rintro ⟨us, ⟨rfl, rfl⟩, -⟩
        rfl
    | cons c cs =>
      constructor
      · exact nofun
      · rintro ⟨us, ⟨rfl, rfl⟩, hus⟩
        exact nomatch hrest.symm.trans hus

/-- A plain value is read from its tokens with any layout around them. -/
theorem IsPlain.read_of_spaced {v : Json} (h : IsPlain v) {ts : List (List Char)}
    (hts : Tokenized v ts) {cs : List Char} (hcs : Spaced ts cs) : read cs = .ok v := by
  rw [← List.append_nil ts] at hcs
  obtain ⟨rest, hread, hrest⟩ := h.readsTokens ts [] cs hts endsNumber_nil hcs
  exact read_eq_ok_iff.2 ⟨rest, hread, hrest.skip_eq_nil⟩

theorem spaced_flatten (ts : List (List Char)) : Spaced ts ts.flatten := by
  simpa using Spaced.flatten_append (.nil (g := []) nofun) ts

/-- A plain value is read back from its compact text, and from that text with layout around its
tokens and with commas after the last items and members. -/
theorem read_written {v : Json} (h : IsPlain v) : read v.compact.toList = .ok v ∧
    ∀ ts cs, Tokenized v ts → Spaced ts cs → read cs = .ok v := by
  refine ⟨?_, fun ts cs hts hcs => h.read_of_spaced hts hcs⟩
  obtain ⟨ts, hts, htext⟩ := h.exists_tokenized
  rw [compact, String.toList_ofList, ← htext]
  exact h.read_of_spaced hts (spaced_flatten ts)

/-- Layout of every kind, commas at both ends, and an array without items. -/
theorem read_written_nested :
    let v := Json.array [.object [("a", .int (-7)), ("b\n", .array [])], .string "=>"]
    let text := " [\x7b \"a\":\t-7\r\n, \"b\\n\" :[ ] , \x7d ,\"=>\",]"
    v.IsPlain ∧ v.compact = "[\x7b\"a\":-7,\"b\\n\":[]\x7d,\"=>\"]" ∧
      read v.compact.toList = .ok v ∧ read text.toList = .ok v := by
  intro v text
  have hmembers : ∀ m ∈ [("a", Json.int (-7)), ("b\n", .array [])], m.2.IsPlain :=
    List.forall_mem_cons.2 ⟨.int (by decide), List.forall_mem_singleton.2 (.array nofun)⟩
  have hv : v.IsPlain := .array (List.forall_mem_cons.2
    ⟨.object (by decide) (by decide) hmembers, List.forall_mem_singleton.2 (.string (by decide))⟩)
  let ts : List (List Char) := [['['], ['{'], writeString "a", [':'], write (.int (-7)), [','],
    writeString "b\n", [':'], ['['], [']'], [','], ['}'], [','], writeString "=>", [','], [']']]
  have hts : Tokenized v ts :=
    .array (.cons (.object (.cons (.int (-7)) (.lastComma (.array .nil)))) (.lastComma (.string "=>")))
  have hnone : ∀ c ∈ ([] : List Char), isLayout c := nofun
  have hblank : ∀ c ∈ [' '], isLayout c := List.forall_mem_singleton.2 rfl
  have htab : ∀ c ∈ ['\t'], isLayout c := List.forall_mem_singleton.2 rfl
  have hline : ∀ c ∈ ['\r', '\n'], isLayout c :=
    List.forall_mem_cons.2 ⟨rfl, List.forall_mem_singleton.2 rfl⟩
  obtain ⟨cs, hcs, htext⟩ : ∃ cs, Spaced ts cs ∧ String.ofList cs = text :=
    ⟨_, .cons hblank (.cons hnone (.cons hblank (.cons hnone (.cons htab (.cons hline (.cons hblank
      (.cons hblank (.cons hnone (.cons hblank (.cons hblank (.cons hblank (.cons hblank
      (.cons hnone (.cons hnone (.cons hnone (.nil hnone)))))))))))))))), by decide +kernel⟩
  obtain ⟨hcompact, hspaced⟩ := read_written hv
  refine ⟨hv, by decide +kernel, hcompact, ?_⟩
  rw [← htext, String.toList_ofList]
  exact hspaced _ _ hts hcs

/-- The members of an object are read back from the text between its braces, with a line feed after
it. -/
theorem readBraced_writeMembers {members : List (String × Json)} (h : IsPlain (.object members)) :
    readBraced (writeMembers members ++ ['\n', '}']) = .ok members := by
  obtain ⟨ts, hts, htext⟩ : ∃ ts, TokenizedMembers members ts ∧ ts.flatten = writeMembers members := by
    cases h with
    | object _ _ values =>
      exact exists_tokenizedMembers fun m hm => (values m hm).exists_tokenized
  have hend : Spaced [['}']] ['\n', '}'] :=
    .cons (g := ['\n']) (List.forall_mem_singleton.2 rfl) (.nil (g := []) nofun)
  have hcs : Spaced (['{'] :: (ts ++ [['}']])) ('{' :: (writeMembers members ++ ['\n', '}'])) :=
    .cons (g := []) nofun (htext ▸ hend.flatten_append ts)
  simp only [readBraced, h.read_of_spaced (.object hts) hcs]

end QueryRules.Json
