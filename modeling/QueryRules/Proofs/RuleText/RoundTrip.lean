import QueryRules.Proofs.Json.RoundTrip
import QueryRules.Proofs.Text.Lines
import QueryRules.RuleText.Draft

/-!
# Rules text read back

- `RuleText.writeDrafts` writes drafts as rules text: for each a line with its input, a line for
  each instruction and, if it has properties, a line with all of them in a block.
- `RuleText.Draft.IsWritable` says which drafts can be written so, and `RuleText.numberedFrom` which
  line numbers they get.
- `RuleText.step_input`, `RuleText.step_instruction`, `RuleText.step_properties`: what reading a
  line of each kind does; `RuleText.foldlM_lines` is what reading the lines of a draft does.
- `RuleText.readDrafts_writeDrafts`: the drafts are read back, with these line numbers.
-/

namespace QueryRules.RuleText

open QueryRules.Text

/-! ## Writing drafts -/

/-- A parameter in parentheses. -/
def writeParam : Option String → List Char
  | none => []
  | some param => '(' :: (param.toList ++ [')'])

/-- A value after a colon and a space. -/
def writeValue : Option String → List Char
  | none => []
  | some value => ':' :: ' ' :: value.toList

/-- The line of an instruction. -/
def DraftInstruction.write (d : DraftInstruction) : List Char :=
  d.kind.name.toList ++ (writeParam d.param ++ writeValue d.value)

/-- The line of a block with properties: their compact text without its outer braces. -/
def writeProperties : Dictionary Json → List (List Char)
  | [] => []
  | m :: ms => ['@' :: '{' :: (Json.writeMembers (m :: ms) ++ ['}', '@'])]

/-- The lines of a draft. -/
def Draft.lines (d : Draft) : List (List Char) :=
  (d.input.toList ++ [' ', '=', '>']) ::
    (d.instructions.map DraftInstruction.write ++ writeProperties d.properties)

/-- Drafts as rules text. -/
def writeDrafts (drafts : List Draft) : String :=
  String.ofList ((drafts.flatMap Draft.lines).flatMap (· ++ ['\n']))

/-- Instructions with the numbers of successive lines. -/
def numberedInstructions (n : Nat) : List DraftInstruction → List DraftInstruction
  | [] => []
  | d :: ds => { d with line := n } :: numberedInstructions (n + 1) ds

/-- A draft with the line numbers that it has if it is written from line `n` on. -/
def Draft.numbered (n : Nat) (d : Draft) : Draft :=
  { d with line := n, instructions := numberedInstructions (n + 1) d.instructions }

/-- Drafts with the line numbers that they have if they are written from line `n` on. -/
def numberedFrom (n : Nat) : List Draft → List Draft
  | [] => []
  | d :: ds => d.numbered n :: numberedFrom (n + d.lines.length) ds

/-! ## Drafts that can be written -/

/-- A text that can stand in a line: it is not empty, it is trimmed and it holds no line feed. -/
structure IsEntry (s : String) : Prop where
  ne_nil : s.toList ≠ []
  trimmed : trim s.toList = s.toList
  oneLine : '\n' ∉ s.toList

/-- An instruction that can be written as a line: its kind is supported, its parameter does not
close the parentheses early and its value does not make the line an input. -/
structure DraftInstruction.IsWritable (config : Config) (d : DraftInstruction) : Prop where
  supported : config.supports d.kind
  param : ∀ s ∈ d.param, IsEntry s ∧ ')' ∉ s.toList
  value : ∀ s ∈ d.value, IsEntry s ∧ ¬ ['=', '>'] <:+ s.toList

/-- A draft that can be written as lines: its input does not look like a comment, and its properties
are those of a plain object. -/
structure Draft.IsWritable (config : Config) (d : Draft) : Prop where
  input : IsEntry d.input
  noComment : d.input.toList.head? ≠ some '#'
  instructions : ∀ i ∈ d.instructions, i.IsWritable config
  properties : (Json.object d.properties).IsPlain

theorem isEntry_iff {s : String} :
    IsEntry s ↔ s.toList ≠ [] ∧ trim s.toList = s.toList ∧ '\n' ∉ s.toList :=
  ⟨fun h => ⟨h.ne_nil, h.trimmed, h.oneLine⟩, fun h => ⟨h.1, h.2.1, h.2.2⟩⟩

instance (s : String) : Decidable (IsEntry s) := decidable_of_iff _ isEntry_iff.symm

theorem DraftInstruction.isWritable_iff {config : Config} {d : DraftInstruction} :
    d.IsWritable config ↔ config.supports d.kind ∧ (∀ s ∈ d.param, IsEntry s ∧ ')' ∉ s.toList) ∧
      ∀ s ∈ d.value, IsEntry s ∧ ¬ ['=', '>'] <:+ s.toList :=
  ⟨fun h => ⟨h.supported, h.param, h.value⟩, fun h => ⟨h.1, h.2.1, h.2.2⟩⟩

instance (config : Config) (d : DraftInstruction) : Decidable (d.IsWritable config) :=
  decidable_of_iff _ DraftInstruction.isWritable_iff.symm

variable {config : Config}

theorem IsEntry.stopsAt {s : String} (h : IsEntry s) : StopsAt isBlank s.toList :=
  (trim_eq_self_iff.1 h.trimmed).1

theorem IsEntry.stopsAt_reverse {s : String} (h : IsEntry s) : StopsAt isBlank s.toList.reverse :=
  (trim_eq_self_iff.1 h.trimmed).2

/-! ## Inputs -/

/-- The line of an input begins a draft. -/
theorem step_input {input : String} (h : IsEntry input) (hcomment : input.toList.head? ≠ some '#')
    (n : Nat) (drafts : List Draft) :
    Reader.step config { drafts } (input.toList ++ [' ', '=', '>'], n) =
      .ok { drafts := { input, line := n } :: drafts } := by
  have htrim : trim (input.toList ++ [' ', '=', '>']) = input.toList ++ [' ', '=', '>'] :=
    trim_append h.ne_nil (by decide) h.stopsAt (stopsAt_cons.2 (by decide))
  have hhead : ¬ (input.toList ++ [' ', '=', '>'] = [] ∨
      (input.toList ++ [' ', '=', '>']).head? = some '#') := by
    rw [List.head?_append_of_ne_nil _ h.ne_nil]
    simp [hcomment]
  have hsuffix : ['=', '>'].isSuffixOf? (input.toList ++ [' ', '=', '>']) =
      some (input.toList ++ [' ']) := by
    rw [List.isSuffixOf?_eq_some_iff_append_eq, List.append_assoc]
    rfl
  simp only [Reader.step, Reader.stepLine, htrim, if_neg hhead, hsuffix,
    trim_concat_space h.trimmed, if_neg h.ne_nil, String.ofList_toList]

/-! ## Instructions -/

theorem isAsciiLetter_of_mem_name {kind : InstructionKind} :
    ∀ c ∈ kind.name.toList, isAsciiLetter c := by
  rw [← List.all_eq_true]
  cases kind <;> decide

theorem cutParam_append {param : Option String} (h : ∀ s ∈ param, ')' ∉ s.toList)
    (value : Option String) :
    cutParam (writeParam param ++ writeValue value) =
      (param.map String.toList, writeValue value) := by
  cases param with
  | none => cases value <;> rfl
  | some s =>
    have hcut : cutAt? ')' (s.toList ++ ')' :: writeValue value) = _ := cutAt?_append (h s rfl)
    have hspace : (writeParam (some s) ++ writeValue value).dropWhile isSpace =
        '(' :: (s.toList ++ ')' :: writeValue value) := by
      simp [writeParam, isSpace]
    simp only [cutParam, hspace, hcut, Option.map_some]

/-- An instruction line is taken apart into its name, its parameter and what follows its colon. -/
theorem cutInstruction?_write {d : DraftInstruction} (h : d.IsWritable config) :
    cutInstruction? d.write =
      some (d.kind.name.toList, d.param.map String.toList, d.value.map (' ' :: ·.toList)) := by
  have hstop : StopsAt isAsciiLetter (writeParam d.param ++ writeValue d.value) := by
    cases d.param with
    | none =>
      cases d.value with
      | none => exact stopsAt_nil _
      | some value => exact stopsAt_cons.2 (by decide)
    | some param => exact stopsAt_cons.2 (by decide)
  have hname : d.kind.name.toList ≠ [] := by
    cases d.kind <;> decide
  have hparam := cutParam_append (fun s hs => (h.param s hs).2) d.value
  unfold cutInstruction? DraftInstruction.write
  rw [takeWhile_append_stop isAsciiLetter_of_mem_name hstop,
    dropWhile_append_stop isAsciiLetter_of_mem_name hstop, hparam]
  cases d.value <;> simp [hname, writeValue, isSpace]

theorem nonBlank_map {o : Option String} {f : String → List Char}
    (h : ∀ s ∈ o, IsEntry s ∧ trim (f s) = s.toList) : nonBlank (o.map f) = o := by
  cases o with
  | none => rfl
  | some s =>
    obtain ⟨hs, hf⟩ := h s rfl
    simp [nonBlank, hf, hs.ne_nil]

/-- An instruction is read back from its line. -/
theorem readInstruction_write {d : DraftInstruction} (h : d.IsWritable config) (n : Nat) :
    readInstruction config n d.write = .ok { d with line := n } := by
  have hparam : nonBlank (d.param.map String.toList) = d.param :=
    nonBlank_map fun s hs => ⟨(h.param s hs).1, (h.param s hs).1.trimmed⟩
  have hvalue : nonBlank (d.value.map (' ' :: ·.toList)) = d.value :=
    nonBlank_map fun s hs => ⟨(h.value s hs).1, trim_cons_space (h.value s hs).1.trimmed⟩
  simp only [readInstruction, cutInstruction?_write h, InstructionKind.ofName?_name,
    if_pos h.supported, hparam, hvalue]

theorem name_ne_nil (kind : InstructionKind) : kind.name.toList ≠ [] := by
  cases kind <;> decide

theorem trim_name (kind : InstructionKind) : trim kind.name.toList = kind.name.toList := by
  cases kind <;> decide

/-- A value that an instruction has ends its line. -/
theorem write_of_value {d : DraftInstruction} {s : String} (h : d.value = some s) :
    d.write = (d.kind.name.toList ++ writeParam d.param ++ [':']) ++ ' ' :: s.toList := by
  simp [DraftInstruction.write, h, writeValue]

/-- A parameter that an instruction without a value has ends its line with a parenthesis. -/
theorem write_of_param {d : DraftInstruction} {s : String} (hv : d.value = none)
    (hp : d.param = some s) : d.write = (d.kind.name.toList ++ '(' :: s.toList) ++ [')'] := by
  simp [DraftInstruction.write, hv, hp, writeValue, writeParam]

theorem write_of_none {d : DraftInstruction} (hv : d.value = none) (hp : d.param = none) :
    d.write = d.kind.name.toList := by
  simp [DraftInstruction.write, hv, hp, writeValue, writeParam]

theorem trim_write {d : DraftInstruction} (h : d.IsWritable config) : trim d.write = d.write := by
  have hname : StopsAt isBlank d.kind.name.toList := (trim_eq_self_iff.1 (trim_name d.kind)).1
  cases hv : d.value with
  | some s =>
    have hs := (h.value s hv).1
    rw [write_of_value hv]
    refine trim_append (by simp) (by simp) ?_ ?_
    · rw [List.append_assoc, stopsAt_append (name_ne_nil _)]
      exact hname
    · rw [List.reverse_cons, stopsAt_append (by simpa using hs.ne_nil)]
      exact hs.stopsAt_reverse
  | none =>
    cases hp : d.param with
    | some s =>
      rw [write_of_param hv hp]
      refine trim_append (by simp) (by simp) ?_ (stopsAt_cons.2 (by decide))
      rw [stopsAt_append (name_ne_nil _)]
      exact hname
    | none =>
      rw [write_of_none hv hp]
      exact trim_name _

theorem not_suffix_write {d : DraftInstruction} (h : d.IsWritable config) :
    ¬ ['=', '>'] <:+ d.write := by
  intro hsuffix
  cases hv : d.value with
  | some s =>
    rw [write_of_value hv] at hsuffix
    exact (h.value s hv).2 (suffix_of_suffix_append_cons (by decide) hsuffix)
  | none =>
    cases hp : d.param with
    | some s =>
      rw [write_of_param hv hp] at hsuffix
      exact absurd (suffix_of_suffix_append_cons (by decide) hsuffix) (by decide)
    | none =>
      rw [write_of_none hv hp] at hsuffix
      revert hsuffix
      cases d.kind <;> decide

theorem newline_not_mem_write {d : DraftInstruction} (h : d.IsWritable config) :
    '\n' ∉ d.write := by
  have hname : '\n' ∉ d.kind.name.toList := by
    intro hc
    exact absurd (isAsciiLetter_of_mem_name _ hc) (by decide)
  have hparam : '\n' ∉ writeParam d.param := by
    cases hp : d.param with
    | none => simp [writeParam]
    | some s => simpa [writeParam] using (h.param s hp).1.oneLine
  have hvalue : '\n' ∉ writeValue d.value := by
    cases hv : d.value with
    | none => simp [writeValue]
    | some s => simpa [writeValue] using (h.value s hv).1.oneLine
  simp [DraftInstruction.write, hname, hparam, hvalue]

/-! ## Lines under an input -/

/-- A line that is neither blank nor a comment nor an input belongs to the latest draft. -/
theorem step_line {line : List Char} (htrim : trim line = line) (hne : line ≠ [])
    (hhead : line.head? ≠ some '#') (hsuffix : ¬ ['=', '>'] <:+ line) (n : Nat) (draft : Draft)
    (drafts : List Draft) :
    Reader.step config { drafts := draft :: drafts } (line, n) =
      Reader.stepRule config n line draft drafts := by
  simp only [Reader.step, Reader.stepLine, htrim, isSuffixOf?_eq_none_iff.2 hsuffix,
    if_neg (not_or.2 ⟨hne, hhead⟩)]

/-- The line of an instruction gives the latest draft one more instruction. -/
theorem step_instruction {d : DraftInstruction} (h : d.IsWritable config) (n : Nat) (draft : Draft)
    (drafts : List Draft) :
    Reader.step config { drafts := draft :: drafts } (d.write, n) =
      .ok { drafts := { draft with
        instructions := draft.instructions ++ [{ d with line := n }] } :: drafts } := by
  obtain ⟨c, cs, hname⟩ := List.exists_cons_of_ne_nil (name_ne_nil d.kind)
  have hletter : isAsciiLetter c := isAsciiLetter_of_mem_name c (hname ▸ List.mem_cons_self)
  have hcons : d.write = c :: (cs ++ (writeParam d.param ++ writeValue d.value)) := by
    rw [DraftInstruction.write, hname, List.cons_append]
  have hcomment : d.write.head? ≠ some '#' := by
    rw [hcons, List.head?_cons]
    intro he
    obtain rfl := Option.some.inj he
    exact absurd hletter (by decide)
  have hrule : Reader.stepRule config n d.write draft drafts = (do
      let instruction ← readInstruction config n d.write
      return { drafts :=
        { draft with instructions := draft.instructions ++ [instruction] } :: drafts }) := by
    unfold Reader.stepRule
    split
    · rename_i he
      obtain rfl := (List.cons.inj (hcons.symm.trans he)).1
      exact absurd hletter (by decide)
    · rename_i he
      obtain rfl := (List.cons.inj (hcons.symm.trans he)).1
      exact absurd hletter (by decide)
    · rfl
  rw [step_line (trim_write h) (hcons ▸ List.cons_ne_nil _ _) hcomment (not_suffix_write h), hrule,
    readInstruction_write h]
  rfl

/-! ## Properties -/

/-- Properties that come after those of a draft, in the order of their keys, are added to them. -/
theorem foldlM_addProperty (n : Nat) {draft : Draft} {properties : Dictionary Json}
    (h : Dictionary.Ascending (draft.properties ++ properties)) :
    properties.foldlM (addProperty n) draft =
      .ok { draft with properties := draft.properties ++ properties } := by
  induction properties generalizing draft with
  | nil => simp [pure, Except.pure]
  | cons m properties ih =>
    have hlt : ∀ e ∈ draft.properties, e.1 < m.1 := fun e he =>
      (List.pairwise_append.1 h).2.2 e he m List.mem_cons_self
    have hkey : Dictionary.hasKey draft.properties m.1 = false :=
      Dictionary.hasKey_eq_false fun e he heq => String.lt_irrefl _ (heq ▸ hlt e he)
    have hadd : addProperty n draft m =
        .ok { draft with properties := draft.properties ++ [m] } := by
      simp [addProperty, hkey, Dictionary.insert_eq_append hlt]
    rw [List.foldlM_cons, hadd]
    show properties.foldlM (addProperty n) _ = _
    rw [ih (by simpa using h)]
    simp

theorem cutBlockLine_append {cs : List Char} (h : cs.getLast? ≠ some '\\') :
    cutBlockLine (cs ++ ['}', '@']) = (cs, true) := by
  have hescaped : ['\\', '}', '@'].isSuffixOf? (cs ++ ['}', '@']) = none := by
    rw [isSuffixOf?_eq_none_iff]
    rintro ⟨front, hfront⟩
    have hcs : front ++ ['\\'] = cs := by
      rw [← List.append_left_inj ['}', '@'], ← hfront, List.append_assoc]
      rfl
    exact h (by rw [← hcs, List.getLast?_concat])
  have hclosed : ['}', '@'].isSuffixOf? (cs ++ ['}', '@']) = some cs :=
    List.isSuffixOf?_eq_some_iff_append_eq.2 rfl
  simp only [cutBlockLine, hescaped, hclosed]

theorem closeBlock_eq {opened : OpenBlock} {properties : Dictionary Json} {draft : Draft}
    (hread : Json.readBraced (opened.text ++ ['}']) = .ok properties)
    (horder : Dictionary.Ascending (draft.properties ++ properties)) (drafts : List Draft) :
    Reader.closeBlock opened (draft :: drafts) =
      .ok { drafts := { draft with properties := draft.properties ++ properties } :: drafts } := by
  simp only [Reader.closeBlock, hread, Except.mapError, bind, Except.bind,
    foldlM_addProperty opened.line horder, pure, Except.pure]

/-- The line of a block gives the latest draft, if it has none, its properties. -/
theorem step_properties {m : String × Json} {ms : Dictionary Json}
    (h : (Json.object (m :: ms)).IsPlain) (n : Nat) {draft : Draft} (hdraft : draft.properties = [])
    (drafts : List Draft) :
    Reader.step config { drafts := draft :: drafts }
      ('@' :: '{' :: (Json.writeMembers (m :: ms) ++ ['}', '@']), n) =
      .ok { drafts := { draft with properties := m :: ms } :: drafts } := by
  have hread := Json.readBraced_writeMembers h
  cases h with
  | object order keys values =>
    have htrim : trim ('@' :: '{' :: (Json.writeMembers (m :: ms) ++ ['}', '@'])) =
        '@' :: '{' :: (Json.writeMembers (m :: ms) ++ ['}', '@']) := by
      rw [← List.cons_append, ← List.cons_append]
      exact trim_append (by simp) (by simp) (stopsAt_cons.2 (by decide))
        (stopsAt_cons.2 (by decide))
    have hsuffix : ¬ ['=', '>'] <:+ '@' :: '{' :: (Json.writeMembers (m :: ms) ++ ['}', '@']) := by
      rw [← List.cons_append, ← List.cons_append]
      intro hc
      exact absurd (suffix_of_suffix_append_cons (by decide) hc) (by decide)
    have hcut := cutBlockLine_append (Json.getLast?_writeMembers_ne values)
    have horder : Dictionary.Ascending (draft.properties ++ m :: ms) := by
      rw [hdraft]
      exact order
    rw [step_line htrim (by simp) (by simp) hsuffix]
    show Reader.stepBlock ⟨n, []⟩ (draft :: drafts) (Json.writeMembers (m :: ms) ++ ['}', '@']) = _
    simp only [Reader.stepBlock, hcut, if_true]
    rw [closeBlock_eq (by simpa using hread) horder, hdraft, List.nil_append]

/-! ## Whole texts -/

theorem foldlM_instructions {ds : List DraftInstruction} (h : ∀ d ∈ ds, d.IsWritable config)
    (n : Nat) (draft : Draft) (drafts : List Draft) :
    ((ds.map DraftInstruction.write).zipIdx n).foldlM (Reader.step config)
      { drafts := draft :: drafts } =
      .ok { drafts := { draft with
        instructions := draft.instructions ++ numberedInstructions n ds } :: drafts } := by
  induction ds generalizing n draft with
  | nil => simp [numberedInstructions, pure, Except.pure]
  | cons d ds ih =>
    obtain ⟨hd, hds⟩ := List.forall_mem_cons.1 h
    rw [List.map_cons, List.zipIdx_cons, List.foldlM_cons, step_instruction hd]
    show ((ds.map DraftInstruction.write).zipIdx (n + 1)).foldlM (Reader.step config) _ = _
    rw [ih hds, numberedInstructions, List.append_assoc, List.singleton_append]

theorem foldlM_properties {properties : Dictionary Json} (h : (Json.object properties).IsPlain)
    (n : Nat) {draft : Draft} (hdraft : draft.properties = []) (drafts : List Draft) :
    ((writeProperties properties).zipIdx n).foldlM (Reader.step config)
      { drafts := draft :: drafts } =
      .ok { drafts := { draft with properties } :: drafts } := by
  cases properties with
  | nil =>
    obtain ⟨input, line, instructions, properties⟩ := draft
    obtain rfl : properties = [] := hdraft
    rfl
  | cons m ms =>
    rw [writeProperties, List.zipIdx_cons, List.foldlM_cons, step_properties h n hdraft]
    rfl

/-- The lines of a draft are read as that draft, with the numbers of its lines. -/
theorem foldlM_lines {d : Draft} (h : d.IsWritable config) (n : Nat) (drafts : List Draft) :
    (d.lines.zipIdx n).foldlM (Reader.step config) { drafts } =
      .ok { drafts := d.numbered n :: drafts } := by
  rw [Draft.lines, List.zipIdx_cons, List.foldlM_cons, step_input h.input h.noComment]
  show ((d.instructions.map DraftInstruction.write ++ writeProperties d.properties).zipIdx
    (n + 1)).foldlM (Reader.step config) _ = _
  rw [List.zipIdx_append, List.foldlM_append, foldlM_instructions h.instructions]
  exact foldlM_properties h.properties _ rfl drafts

theorem foldlM_drafts {ds : List Draft} (h : ∀ d ∈ ds, d.IsWritable config) (n : Nat)
    (drafts : List Draft) :
    ((ds.flatMap Draft.lines).zipIdx n).foldlM (Reader.step config) { drafts } =
      .ok { drafts := (numberedFrom n ds).reverse ++ drafts } := by
  induction ds generalizing n drafts with
  | nil => rfl
  | cons d ds ih =>
    obtain ⟨hd, hds⟩ := List.forall_mem_cons.1 h
    rw [List.flatMap_cons, List.zipIdx_append, List.foldlM_append, foldlM_lines hd]
    show ((ds.flatMap Draft.lines).zipIdx (n + d.lines.length)).foldlM (Reader.step config) _ = _
    rw [ih hds, numberedFrom, List.reverse_cons, List.append_assoc, List.singleton_append]

theorem newline_not_mem_lines {d : Draft} (h : d.IsWritable config) : ∀ l ∈ d.lines, '\n' ∉ l := by
  have hinput : '\n' ∉ d.input.toList ++ [' ', '=', '>'] := by
    simp [h.input.oneLine]
  have hproperties : ∀ l ∈ writeProperties d.properties, '\n' ∉ l := by
    have hplain := h.properties
    cases hps : d.properties with
    | nil => exact fun l hl => nomatch hl
    | cons m ms =>
      rw [hps] at hplain
      cases hplain with
      | object _ _ values =>
        have := Json.newline_not_mem_writeMembers fun m hm => (values m hm).newline_not_mem
        simpa [writeProperties] using this
  intro l hl
  rw [Draft.lines, List.mem_cons, List.mem_append, List.mem_map] at hl
  rcases hl with rfl | ⟨i, hi, rfl⟩ | hl
  · exact hinput
  · exact newline_not_mem_write (h.instructions i hi)
  · exact hproperties l hl

/-- Drafts that are written as rules text are read back, with the numbers of the lines that they
have been written on. -/
theorem readDrafts_writeDrafts (config : Config) (drafts : List Draft)
    (h : ∀ d ∈ drafts, d.IsWritable config) :
    readDrafts config (writeDrafts drafts) = .ok (numberedFrom 1 drafts) := by
  have hlines : lines (writeDrafts drafts).toList = drafts.flatMap Draft.lines := by
    rw [writeDrafts, String.toList_ofList]
    refine lines_ended fun l hl => ?_
    obtain ⟨d, hd, hl⟩ := List.mem_flatMap.1 hl
    exact newline_not_mem_lines (h d hd) l hl
  have hread := foldlM_drafts h 1 []
  rw [List.append_nil] at hread
  rw [readDrafts, hlines, hread]
  show Except.ok (numberedFrom 1 drafts).reverse.reverse = _
  rw [List.reverse_reverse]

/-- Drafts that hold, where they may, the marks by which lines are told apart. -/
def markedDrafts : List Draft :=
  [{ input := "@\x7b tv => # radio", line := 0
     instructions := [⟨.up, some "2 :", some "@a \x7d@ => (b)", 0⟩, ⟨.delete, none, none, 0⟩]
     properties :=
       [("#", .array [.string "=>\n\x7d@", .object [("", .int (-7))]]), ("_id", .null)] },
   { input := "phone", line := 0, instructions := [⟨.decorate, some "k", none, 0⟩] }]

theorem isWritable_markedDrafts : ∀ d ∈ markedDrafts, d.IsWritable {} := by
  have hitems : ∀ v ∈ [Json.string "=>\n\x7d@", .object [("", .int (-7))]], v.IsPlain := by
    refine List.forall_mem_cons.2 ⟨.string (by decide), List.forall_mem_cons.2 ⟨?_, by simp⟩⟩
    exact .object (by decide) (by decide) (by simpa using .int (by decide))
  refine List.forall_mem_cons.2 ⟨⟨by decide, by decide, by decide, ?_⟩,
    List.forall_mem_cons.2 ⟨⟨by decide, by decide, by decide, ?_⟩, by simp⟩⟩
  · exact .object (by decide) (by decide) (by simpa using ⟨.array hitems, .null⟩)
  · exact .object (by decide) (by decide) (by simp)

theorem readDrafts_writeDrafts_marked :
    (∀ d ∈ markedDrafts, d.IsWritable {}) ∧
      writeDrafts markedDrafts =
        "@\x7b tv => # radio =>\nUP(2 :): @a \x7d@ => (b)\nDELETE\n" ++
        "@\x7b\"#\":[\"=>\\n\x7d@\",\x7b\"\":-7\x7d],\"_id\":null\x7d@\n" ++
        "phone =>\nDECORATE(k)\n" ∧
      readDrafts {} (writeDrafts markedDrafts) = .ok (numberedFrom 1 markedDrafts) ∧
      (numberedFrom 1 markedDrafts).map (fun d => (d.line, d.instructions.map (·.line))) =
        [(1, [2, 3]), (5, [6])] :=
  ⟨isWritable_markedDrafts, by decide +kernel,
    readDrafts_writeDrafts {} markedDrafts isWritable_markedDrafts, by decide⟩

end QueryRules.RuleText
