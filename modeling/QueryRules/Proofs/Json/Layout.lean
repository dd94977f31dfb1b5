import QueryRules.Proofs.Json.Tokens

/-!
# Structured values with layout between their tokens

- `Json.Tokenized`: the tokens that a value may be written with. A comma may follow the last item or
  member.
- `Json.Spaced`: a text is made of some tokens with any layout around them.
- `Json.IsPlain`: numbers are whole numbers of 64 bits, strings and keys hold no backspace and no
  form feed, and members ascend.
- `Json.IsPlain.readsTokens`: a plain value is read from its tokens, whatever layout stands around
  them, before any token that is no part of a number. By induction over the value, with the tokens
  behind it and their layout as they are.
-/

namespace QueryRules.Json

open QueryRules.Text

/-! ## Tokens and layout -/

mutual

/-- The value may be written with the tokens: those of its compact text, and commas after the last
items and members where the writer likes. -/
inductive Tokenized : Json → List (List Char) → Prop where
  | null : Tokenized .null [write .null]
  | bool (b : Bool) : Tokenized (.bool b) [write (.bool b)]
  | int (n : Int) : Tokenized (.int n) [write (.int n)]
  | string (s : String) : Tokenized (.string s) [writeString s]
  | array {items : List Json} {ts : List (List Char)} (h : TokenizedItems items ts) :
      Tokenized (.array items) (['['] :: (ts ++ [[']']]))
  | object {members : List (String × Json)} {ts : List (List Char)}
      (h : TokenizedMembers members ts) : Tokenized (.object members) (['{'] :: (ts ++ [['}']]))

/-- The items of an array may be written with the tokens. -/
inductive TokenizedItems : List Json → List (List Char) → Prop where
  | nil : TokenizedItems [] []
  | last {v : Json} {ts : List (List Char)} (h : Tokenized v ts) : TokenizedItems [v] ts
  | lastComma {v : Json} {ts : List (List Char)} (h : Tokenized v ts) :
      TokenizedItems [v] (ts ++ [[',']])
  | cons {v w : Json} {vs : List Json} {ts us : List (List Char)} (h : Tokenized v ts)
      (hs : TokenizedItems (w :: vs) us) : TokenizedItems (v :: w :: vs) (ts ++ [','] :: us)

/-- The members of an object may be written with the tokens. -/
inductive TokenizedMembers : List (String × Json) → List (List Char) → Prop where
  | nil : TokenizedMembers [] []
  | last {k : String} {v : Json} {ts : List (List Char)} (h : Tokenized v ts) :
      TokenizedMembers [(k, v)] (writeString k :: [':'] :: ts)
  | lastComma {k : String} {v : Json} {ts : List (List Char)} (h : Tokenized v ts) :
      TokenizedMembers [(k, v)] (writeString k :: [':'] :: (ts ++ [[',']]))
  | cons {k : String} {v : Json} {m : String × Json} {ms : List (String × Json)}
      {ts us : List (List Char)} (h : Tokenized v ts) (hs : TokenizedMembers (m :: ms) us) :
      TokenizedMembers ((k, v) :: m :: ms) (writeString k :: [':'] :: (ts ++ [','] :: us))

end

/-- The text is made of the tokens, with any layout before, between and after them. -/
inductive Spaced : List (List Char) → List Char → Prop where
  | nil {g : List Char} (hg : ∀ c ∈ g, isLayout c) : Spaced [] g
  | cons {g t cs : List Char} {ts : List (List Char)} (hg : ∀ c ∈ g, isLayout c)
      (h : Spaced ts cs) : Spaced (t :: ts) (g ++ (t ++ cs))

/-- Tokens may stand without layout. -/
theorem Spaced.flatten_append {us : List (List Char)} {cs : List Char} (h : Spaced us cs)
    (ts : List (List Char)) : Spaced (ts ++ us) (ts.flatten ++ cs) := by
  induction ts with
  | nil => exact h
  | cons t ts ih =>
    rw [List.flatten_cons, List.append_assoc]
    exact .cons (g := []) nofun ih

theorem Spaced.skip_eq_nil {cs : List Char} (h : Spaced [] cs) : skip cs = [] := by
  cases h with
  | nil hg => simpa [skip] using dropWhile_append_stop hg (stopsAt_nil isLayout)

/-- The layout before a token is passed over. -/
theorem Spaced.skip_eq {t cs : List Char} {ts : List (List Char)} (h : Spaced (t :: ts) cs)
    (hne : t ≠ []) (ht : StopsAt isLayout t) : ∃ rest, skip cs = t ++ rest ∧ Spaced ts rest := by
  cases h with
  | @cons g _ rest _ hg h =>
    exact ⟨rest, dropWhile_append_stop hg ((stopsAt_append hne).2 ht), h⟩

/-- The first token, if there is one, is no part of a number. -/
def EndsNumber (ts : List (List Char)) : Prop :=
  ∀ t ∈ ts.head?, t ≠ [] ∧ StopsAt isNumberChar t

theorem endsNumber_nil : EndsNumber [] := nofun

theorem endsNumber_cons {c : Char} (hc : isNumberChar c = false) (ts : List (List Char)) :
    EndsNumber ([c] :: ts) := by
  rintro t ⟨⟩
  exact ⟨List.cons_ne_nil _ _, stopsAt_cons.2 hc⟩

/-- Neither layout nor the tokens that end a number go on with it. -/
theorem Spaced.stopsAt {ts : List (List Char)} {cs : List Char} (h : Spaced ts cs)
    (hts : EndsNumber ts) : StopsAt isNumberChar cs := by
  have hlayout : ∀ c, isLayout c → isNumberChar c = false := by
    intro c hc
    simp only [isLayout, isSpace, Bool.or_eq_true, beq_iff_eq] at hc
    rcases hc with ((rfl | rfl) | rfl) | rfl <;> decide
  cases h with
  | nil hg => exact fun c hc => hlayout c (hg c (List.mem_of_mem_head? hc))
  | @cons g t rest ts hg h =>
    obtain ⟨hne, ht⟩ := hts t rfl
    cases g with
    | nil => exact (stopsAt_append hne).2 ht
    | cons c g => exact stopsAt_cons.2 (hlayout c (hg c List.mem_cons_self))

/-! ## Plain values -/

/-- A value whose numbers are whole numbers of 64 bits, whose strings and keys hold no backspace and
no form feed, and whose members stand in ascending order of their keys. -/
inductive IsPlain : Json → Prop where
  | null : IsPlain .null
  | bool (b : Bool) : IsPlain (.bool b)
  | int {n : Int} (h : isInt64 n) : IsPlain (.int n)
  | string {s : String} (h : IsPlainText s) : IsPlain (.string s)
  | array {items : List Json} (h : ∀ v ∈ items, IsPlain v) : IsPlain (.array items)
  | object {members : List (String × Json)} (order : Dictionary.Ascending members)
      (keys : ∀ m ∈ members, IsPlainText m.1) (values : ∀ m ∈ members, IsPlain m.2) :
      IsPlain (.object members)

/-- The value is read from its tokens with layout around them, before tokens that end a number. -/
def ReadsTokens (v : Json) : Prop := ∀ ts us cs, Tokenized v ts → EndsNumber us →
  Spaced (ts ++ us) cs → ∃ rest, Reads (scan (skip cs)) v rest ∧ Spaced us rest

/-! ## Items and members -/

theorem scanEither_first {a b : Char} {cs rest : List Char} (h : cs = a :: rest) :
    Reads (scanEither a b cs) true rest := by
  subst h
  exact ⟨Nat.lt_succ_self _, if_pos rfl⟩

theorem scanEither_second {a b : Char} {cs rest : List Char} (hab : b ≠ a) (h : cs = b :: rest) :
    Reads (scanEither a b cs) false rest := by
  subst h
  exact ⟨Nat.lt_succ_self _, (if_neg hab).trans (if_pos rfl)⟩

/-- What begins no value of another kind can only be a number. -/
theorem scan_eq_scanNumber {c : Char} (hc : c ∉ ['{', '[', '"', '\'', 't', 'f', 'n'])
    (cs : List Char) : scan (c :: cs) = scanNumber (c :: cs) := by
  simp only [List.mem_cons, List.not_mem_nil, or_false, not_or] at hc
  rw [scan] <;> simp [hc]

/-- No value begins with a closing bracket. -/
theorem head?_of_reads_scan {cs rest : List Char} {v : Json} (h : Reads (scan cs) v rest) :
    cs.head? ≠ some ']' := by
  intro hcs
  obtain ⟨cs, rfl⟩ := List.head?_eq_some_iff.1 hcs
  have hrun : scanRun isNumberChar (']' :: cs) = .error (']' :: cs) := rfl
  rw [scan_eq_scanNumber (by decide), scanNumber, hrun] at h
  exact not_reads_error h

/-- No key begins with a closing brace. -/
theorem head?_of_reads_scanKey {cs rest k : List Char} (h : Reads (scanKey cs) k rest) :
    cs.head? ≠ some '}' := by
  intro hcs
  obtain ⟨cs, rfl⟩ := List.head?_eq_some_iff.1 hcs
  have hkey : scanKey ('}' :: cs) = .error ('}' :: cs) := rfl
  rw [hkey] at h
  exact not_reads_error h

theorem scanItems_nil (rest : List Char) : Reads (scanItems (']' :: rest)) [] rest := by
  refine ⟨Nat.lt_succ_self _, ?_⟩
  rw [scanItems]

/-- An item with a comma after it. -/
theorem scanItems_cons {cs cs₁ cs₂ rest : List Char} {v : Json} {vs : List Json}
    (hv : Reads (scan cs) v cs₁) (hcomma : skip cs₁ = ',' :: cs₂)
    (hvs : Reads (scanItems (skip cs₂)) vs rest) : Reads (scanItems cs) (v :: vs) rest := by
  have hcs := head?_of_reads_scan hv
  obtain ⟨_, hv⟩ := hv
  obtain ⟨_, hmore⟩ := scanEither_first (b := ']') hcomma
  obtain ⟨_, hvs⟩ := hvs
  rw [scanItems.eq_def]
  split
  · exact absurd rfl hcs
  · simp only [hv, hmore, hvs, bind, Except.bind]
    exact ⟨_, rfl⟩

/-- The last item, with the bracket after it. -/
theorem scanItems_last {cs cs₁ rest : List Char} {v : Json} (hv : Reads (scan cs) v cs₁)
    (hend : skip cs₁ = ']' :: rest) : Reads (scanItems cs) [v] rest := by
  have hcs := head?_of_reads_scan hv
  obtain ⟨_, hv⟩ := hv
  obtain ⟨_, hmore⟩ := scanEither_second (a := ',') (by decide) hend
  rw [scanItems.eq_def]
  split
  · exact absurd rfl hcs
  · simp only [hv, hmore, bind, Except.bind]
    exact ⟨_, rfl⟩

theorem scanMembers_nil (rest : List Char) : Reads (scanMembers ('}' :: rest)) [] rest := by
  refine ⟨Nat.lt_succ_self _, ?_⟩
  rw [scanMembers]

/-- A member with a comma after it. -/
theorem scanMembers_cons {cs cs₁ cs₂ cs₃ cs₄ rest : List Char} {k : String} {v : Json}
    {ms : List (String × Json)} (hk : Reads (scanKey cs) k.toList cs₁)
    (hcolon : skip cs₁ = ':' :: cs₂) (hv : Reads (scan (skip cs₂)) v cs₃)
    (hcomma : skip cs₃ = ',' :: cs₄) (hms : Reads (scanMembers (skip cs₄)) ms rest) :
    Reads (scanMembers cs) ((k, v) :: ms) rest := by
  have hcs := head?_of_reads_scanKey hk
  obtain ⟨_, hk⟩ := hk
  obtain ⟨_, hsep⟩ := scanEither_first (b := ':') hcolon
  obtain ⟨_, hv⟩ := hv
  obtain ⟨_, hmore⟩ := scanEither_first (b := '}') hcomma
  obtain ⟨_, hms⟩ := hms
  rw [scanMembers.eq_def]
  split
  · exact absurd rfl hcs
  · simp only [hk, hsep, hv, hmore, hms, String.ofList_toList, bind, Except.bind]
    exact ⟨_, rfl⟩

/-- The last member, with the brace after it. -/
theorem scanMembers_last {cs cs₁ cs₂ cs₃ rest : List Char} {k : String} {v : Json}
    (hk : Reads (scanKey cs) k.toList cs₁) (hcolon : skip cs₁ = ':' :: cs₂)
    (hv : Reads (scan (skip cs₂)) v cs₃) (hend : skip cs₃ = '}' :: rest) :
    Reads (scanMembers cs) [(k, v)] rest := by
  have hcs := head?_of_reads_scanKey hk
  obtain ⟨_, hk⟩ := hk
  obtain ⟨_, hsep⟩ := scanEither_first (b := ':') hcolon
  obtain ⟨_, hv⟩ := hv
  obtain ⟨_, hmore⟩ := scanEither_second (a := ',') (by decide) hend
  rw [scanMembers.eq_def]
  split
  · exact absurd rfl hcs
  · simp only [hk, hsep, hv, hmore, String.ofList_toList, bind, Except.bind]
    exact ⟨_, rfl⟩

/-- A key is read back from its quotes. -/
theorem scanKey_writeString {k : String} (hk : IsPlainText k) (rest : List Char) :
    Reads (scanKey (writeString k ++ rest)) k.toList rest := by
  rw [writeString, List.cons_append, List.append_assoc]
  exact (scanString_writeString hk rest).past '"'

theorem Spaced.skip_eq_cons {c : Char} {cs : List Char} {ts : List (List Char)}
    (h : Spaced ([c] :: ts) cs) (hc : isLayout c = false) :
    ∃ rest, skip cs = c :: rest ∧ Spaced ts rest :=
  h.skip_eq (List.cons_ne_nil _ _) (stopsAt_cons.2 hc)

/-- The items of an array are read from their tokens and the bracket after them. -/
theorem scanItems_tokenized {items : List Json} (hread : ∀ v ∈ items, ReadsTokens v)
    {ts us : List (List Char)} (h : TokenizedItems items ts) {cs : List Char}
    (hcs : Spaced (ts ++ [']'] :: us) cs) :
    ∃ rest, Reads (scanItems (skip cs)) items rest ∧ Spaced us rest := by
  induction items generalizing ts cs with
  | nil =>
    cases h with
    | nil =>
      obtain ⟨rest, hskip, hrest⟩ := hcs.skip_eq_cons (by decide)
      exact ⟨rest, hskip ▸ scanItems_nil rest, hrest⟩
  | cons v items ih =>
    obtain ⟨hv, hitems⟩ := List.forall_mem_cons.1 hread
    cases h with
    | last h =>
      obtain ⟨cs₁, hv, hcs₁⟩ := hv _ _ _ h (endsNumber_cons (by decide) _) hcs
      obtain ⟨rest, hend, hrest⟩ := hcs₁.skip_eq_cons (by decide)
      exact ⟨rest, scanItems_last hv hend, hrest⟩
    | lastComma h =>
      rw [List.append_assoc] at hcs
      obtain ⟨cs₁, hv, hcs₁⟩ := hv _ _ _ h (endsNumber_cons (by decide) _) hcs
      obtain ⟨cs₂, hmore, hcs₂⟩ := hcs₁.skip_eq_cons (by decide)
      obtain ⟨rest, hend, hrest⟩ := hcs₂.skip_eq_cons (by decide)
      exact ⟨rest, scanItems_cons hv hmore (hend ▸ scanItems_nil rest), hrest⟩
    | cons h hs =>
      rw [List.append_assoc] at hcs
      obtain ⟨cs₁, hv, hcs₁⟩ := hv _ _ _ h (endsNumber_cons (by decide) _) hcs
      obtain ⟨cs₂, hmore, hcs₂⟩ := hcs₁.skip_eq_cons (by decide)
      obtain ⟨rest, hvs, hrest⟩ := ih hitems hs hcs₂
      exact ⟨rest, scanItems_cons hv hmore hvs, hrest⟩

/-- The members of an object are read from their tokens and the brace after them. -/
theorem scanMembers_tokenized {members : List (String × Json)}
    (hkeys : ∀ m ∈ members, IsPlainText m.1) (hread : ∀ m ∈ members, ReadsTokens m.2)
    {ts us : List (List Char)} (h : TokenizedMembers members ts) {cs : List Char}
    (hcs : Spaced (ts ++ ['}'] :: us) cs) :
    ∃ rest, Reads (scanMembers (skip cs)) members rest ∧ Spaced us rest := by
  have hkey {k : String} (hk : IsPlainText k) {ts : List (List Char)} {cs : List Char}
      (hcs : Spaced (writeString k :: [':'] :: ts) cs) : ∃ cs₁ cs₂,
      Reads (scanKey (skip cs)) k.toList cs₁ ∧ skip cs₁ = ':' :: cs₂ ∧ Spaced ts cs₂ := by
    obtain ⟨cs₁, hskip, hcs₁⟩ := hcs.skip_eq (List.cons_ne_nil _ _) (stopsAt_cons.2 (by decide))
    obtain ⟨cs₂, hcolon, hcs₂⟩ := hcs₁.skip_eq_cons (by decide)
    exact ⟨cs₁, cs₂, hskip ▸ scanKey_writeString hk cs₁, hcolon, hcs₂⟩
  induction members generalizing ts cs with
  | nil =>
    cases h with
    | nil =>
      obtain ⟨rest, hskip, hrest⟩ := hcs.skip_eq_cons (by decide)
      exact ⟨rest, hskip ▸ scanMembers_nil rest, hrest⟩
  | cons m members ih =>
    obtain ⟨hk, hks⟩ := List.forall_mem_cons.1 hkeys
    obtain ⟨hv, hmembers⟩ := List.forall_mem_cons.1 hread
    cases h with
    | last h =>
      obtain ⟨cs₁, cs₂, hk, hcolon, hcs₂⟩ := hkey hk hcs
      obtain ⟨cs₃, hv, hcs₃⟩ := hv _ _ _ h (endsNumber_cons (by decide) _) hcs₂
      obtain ⟨rest, hend, hrest⟩ := hcs₃.skip_eq_cons (by decide)
      exact ⟨rest, scanMembers_last hk hcolon hv hend, hrest⟩
    | lastComma h =>
      rw [List.cons_append, List.cons_append, List.append_assoc] at hcs
      obtain ⟨cs₁, cs₂, hk, hcolon, hcs₂⟩ := hkey hk hcs
      obtain ⟨cs₃, hv, hcs₃⟩ := hv _ _ _ h (endsNumber_cons (by decide) _) hcs₂
      obtain ⟨cs₄, hmore, hcs₄⟩ := hcs₃.skip_eq_cons (by decide)
      obtain ⟨rest, hend, hrest⟩ := hcs₄.skip_eq_cons (by decide)
      exact ⟨rest, scanMembers_cons hk hcolon hv hmore (hend ▸ scanMembers_nil rest), hrest⟩
    | cons h hs =>
      rw [List.cons_append, List.cons_append, List.append_assoc] at hcs
      obtain ⟨cs₁, cs₂, hk, hcolon, hcs₂⟩ := hkey hk hcs
      obtain ⟨cs₃, hv, hcs₃⟩ := hv _ _ _ h (endsNumber_cons (by decide) _) hcs₂
      obtain ⟨cs₄, hmore, hcs₄⟩ := hcs₃.skip_eq_cons (by decide)
      obtain ⟨rest, hms, hrest⟩ := ih hks hmembers hs hcs₄
      exact ⟨rest, scanMembers_cons hk hcolon hv hmore hms, hrest⟩

/-! ## Whole values -/

theorem scanWord_append {word : List Char} (h : 0 < word.length) (v : Json) (rest : List Char) :
    Reads (scanWord word h v (word ++ rest)) v rest := by
  have hlt : rest.length < (word ++ rest).length := by
    rw [List.length_append]
    omega
  refine ⟨hlt, ?_⟩
  unfold scanWord
  rw [dif_pos (List.isPrefixOf_iff_prefix.2 (List.prefix_append word rest))]
  simp only [List.drop_left]

theorem scan_toString {n : Int} (hn : isInt64 n) {rest : List Char}
    (hrest : StopsAt isNumberChar rest) :
    Reads (scan ((toString n).toList ++ rest)) (.int n) rest := by
  obtain ⟨c, cs, he⟩ := List.exists_cons_of_ne_nil (toString_ne_nil n)
  have hc : c ∉ ['{', '[', '"', '\'', 't', 'f', 'n'] := by
    intro hmem
    obtain ⟨hdigit, hminus⟩ : c.isDigit = false ∧ c ≠ '-' := by
      simp only [List.mem_cons, List.not_mem_nil, or_false] at hmem
      rcases hmem with rfl | rfl | rfl | rfl | rfl | rfl | rfl <;> decide
    exact not_mem_toString hdigit hminus (he ▸ List.mem_cons_self)
  have hnumber := scanNumber_toString hn hrest
  rw [he, List.cons_append] at hnumber ⊢
  rw [scan_eq_scanNumber hc]
  exact hnumber

/-- The text of a whole number does not begin with layout. -/
theorem stopsAt_toString (n : Int) : StopsAt isLayout (toString n).toList := by
  intro c hc
  rw [Bool.eq_false_iff]
  intro hl
  simp only [isLayout, isSpace, Bool.or_eq_true, beq_iff_eq] at hl
  rcases hl with ((rfl | rfl) | rfl) | rfl <;>
    exact not_mem_toString (by decide) (by decide) (List.mem_of_mem_head? hc)

/-- A value with one token, whatever follows it. -/
theorem Spaced.reads_scan {t cs : List Char} {us : List (List Char)} (h : Spaced (t :: us) cs)
    (hne : t ≠ []) (ht : StopsAt isLayout t) {v : Json}
    (hread : ∀ rest, Reads (scan (t ++ rest)) v rest) :
    ∃ rest, Reads (scan (skip cs)) v rest ∧ Spaced us rest := by
  obtain ⟨rest, hskip, hrest⟩ := h.skip_eq hne ht
  exact ⟨rest, hskip ▸ hread rest, hrest⟩

/-- Every plain value is read from its tokens. -/
theorem IsPlain.readsTokens {v : Json} (h : IsPlain v) : ReadsTokens v := by
  induction h with
  | null =>
    rintro _ us cs ⟨⟩ - hcs
    refine hcs.reads_scan (List.cons_ne_nil _ _) (stopsAt_cons.2 (by decide)) fun rest => ?_
    rw [write, List.cons_append, scan]
    exact scanWord_append _ _ rest
  | bool b =>
    rintro _ us cs ⟨⟩ - hcs
    cases b with
    | false =>
      refine hcs.reads_scan (List.cons_ne_nil _ _) (stopsAt_cons.2 (by decide)) fun rest => ?_
      rw [write, List.cons_append, scan]
      exact scanWord_append _ _ rest
    | true =>
      refine hcs.reads_scan (List.cons_ne_nil _ _) (stopsAt_cons.2 (by decide)) fun rest => ?_
      rw [write, List.cons_append, scan]
      exact scanWord_append _ _ rest
  | @int n hn =>
    rintro _ us cs ⟨⟩ hus hcs
    rw [write] at hcs
    obtain ⟨rest, hskip, hrest⟩ := hcs.skip_eq (toString_ne_nil n) (stopsAt_toString n)
    exact ⟨rest, hskip ▸ scan_toString hn (hrest.stopsAt hus), hrest⟩
  | @string s hs =>
    rintro _ us cs ⟨⟩ - hcs
    refine hcs.reads_scan (List.cons_ne_nil _ _) (stopsAt_cons.2 (by decide)) fun rest => ?_
    have hread := (scanString_writeString hs rest).map fun cs => Json.string (String.ofList cs)
    rw [String.ofList_toList] at hread
    rw [writeString, List.cons_append, List.append_assoc, scan]
    exact hread.past '"'
  | array _ ih =>
    rintro _ us cs h - hcs
    cases h with
    | array h =>
      rw [List.cons_append, List.append_assoc] at hcs
      obtain ⟨cs₁, hskip, hcs₁⟩ := hcs.skip_eq_cons (by decide)
      obtain ⟨rest, hitems, hrest⟩ := scanItems_tokenized ih h hcs₁
      refine ⟨rest, ?_, hrest⟩
      rw [hskip, scan]
      exact (hitems.map _).weaken _
  | object order keys _ ih =>
    rintro _ us cs h - hcs
    cases h with
    | object h =>
      rw [List.cons_append, List.append_assoc] at hcs
      obtain ⟨cs₁, hskip, hcs₁⟩ := hcs.skip_eq_cons (by decide)
      obtain ⟨rest, hmembers, hrest⟩ := scanMembers_tokenized keys ih h hcs₁
      have hobject := hmembers.map fun ms => Json.object (Dictionary.ofList ms)
      rw [Dictionary.ofList_eq_self order] at hobject
      refine ⟨rest, ?_, hrest⟩
      rw [hskip, scan]
      exact hobject.weaken _

end QueryRules.Json
