import QueryRules.Json.Relaxed
import QueryRules.Proofs.Text.Reading

/-!
# Strings and whole numbers read back

- `Json.scanString_writeString`: a string without backspaces and form feeds is read back from
  between its quotes; each escape is read back by itself (`Json.scanString_writeChar`).
- `Json.writeString_injective`: two strings differ between quotes, whatever is escaped in them; no
  character is written as the beginning of another one (`Json.writeChar_append_inj`).
- `Json.readInteger?_toString`, `Json.scanNumber_toString`: a whole number is read back from its
  digits, before anything that is no part of a number.
- `Json.isDigit_or_eq_of_mem_toString`, `Json.newline_not_mem_writeString`: what the texts are made
  of.
-/

namespace QueryRules.Json

open QueryRules.Text

/-! ## Strings -/

/-- A string between quotes keeps every character but a backspace and a form feed. -/
def IsPlainText (s : String) : Prop := ∀ c ∈ s.toList, c ≠ '\x08' ∧ c ≠ '\x0c'

theorem isPlainText_iff {s : String} :
    IsPlainText s ↔ s.toList.all fun c => c != '\x08' && c != '\x0c' := by
  simp [IsPlainText]

instance (s : String) : Decidable (IsPlainText s) := decidable_of_iff _ isPlainText_iff.symm

/-- The escape of a control character stands for it. -/
theorem hexChar?_control : ∀ n < 0x20,
    ['0', '0', Nat.digitChar (n / 16), Nat.digitChar (n % 16)].all isHexDigit ∧
      hexChar? '0' '0' (Nat.digitChar (n / 16)) (Nat.digitChar (n % 16)) = some (Char.ofNat n) := by
  decide

theorem scanString_hex {x y z w c : Char} (hdigits : [x, y, z, w].all isHexDigit)
    (hchar : hexChar? x y z w = some c) {cs es rest : List Char}
    (h : Reads (scanString '"' cs) es rest) :
    Reads (scanString '"' ('\\' :: 'u' :: x :: y :: z :: w :: cs)) (c :: es) rest := by
  unfold scanString
  rw [if_neg (by decide), if_pos rfl]
  show Reads (if [x, y, z, w].all isHexDigit = true then _ else _) _ _
  rw [if_pos hdigits]
  split
  · rename_i e he
    obtain rfl : c = e := Option.some.inj (hchar.symm.trans he)
    exact (h.map (c :: ·)).weaken _
  · rename_i he
    exact nomatch hchar.symm.trans he

/-- A character that is written between quotes is read back. -/
theorem scanString_writeChar {c : Char} (hb : c ≠ '\x08') (hf : c ≠ '\x0c') {cs es rest : List Char}
    (h : Reads (scanString '"' cs) es rest) :
    Reads (scanString '"' (writeChar c ++ cs)) (c :: es) rest := by
  by_cases hquote : c = '"'
  · subst hquote
    exact ((h.map ('"' :: ·)).past '"').past '\\'
  by_cases hbackslash : c = '\\'
  · subst hbackslash
    exact ((h.map ('\\' :: ·)).past '\\').past '\\'
  by_cases hn : c = '\n'
  · subst hn
    exact ((h.map ('\n' :: ·)).past 'n').past '\\'
  by_cases hr : c = '\r'
  · subst hr
    exact ((h.map ('\r' :: ·)).past 'r').past '\\'
  by_cases ht : c = '\t'
  · subst ht
    exact ((h.map ('\t' :: ·)).past 't').past '\\'
  by_cases hcontrol : c.toNat < 0x20
  · have hw : writeChar c =
        ['\\', 'u', '0', '0', Nat.digitChar (c.toNat / 16), Nat.digitChar (c.toNat % 16)] := by
      simp [writeChar, hquote, hbackslash, hn, hr, ht, hb, hf, hcontrol]
    obtain ⟨hdigits, hchar⟩ := hexChar?_control c.toNat hcontrol
    rw [Char.ofNat_toNat] at hchar
    rw [hw]
    exact scanString_hex hdigits hchar h
  · have hw : writeChar c = [c] := by
      simp [writeChar, hquote, hbackslash, hn, hr, ht, hb, hf, hcontrol]
    rw [hw, List.singleton_append]
    unfold scanString
    rw [if_neg hquote, if_neg hbackslash]
    exact (h.map (c :: ·)).past c

/-- A string is read back from between its quotes. -/
theorem scanString_writeString {cs : List Char} (h : ∀ c ∈ cs, c ≠ '\x08' ∧ c ≠ '\x0c')
    (rest : List Char) : Reads (scanString '"' (cs.flatMap writeChar ++ '"' :: rest)) cs rest := by
  induction cs with
  | nil =>
    refine ⟨Nat.lt_succ_self _, ?_⟩
    show scanString '"' ('"' :: rest) = _
    unfold scanString
    rw [if_pos rfl]
  | cons c cs ih =>
    obtain ⟨⟨hb, hf⟩, hcs⟩ := List.forall_mem_cons.1 h
    rw [List.flatMap_cons, List.append_assoc]
    exact scanString_writeChar hb hf (ih hcs)

theorem newline_not_mem_writeChar (c : Char) : '\n' ∉ writeChar c := by
  unfold writeChar
  split_ifs with _ _ hn
  all_goals first | decide | simp
  simpa using Ne.symm hn

/-- A string between quotes is one line. -/
theorem newline_not_mem_writeString (s : String) : '\n' ∉ writeString s := by
  simp [writeString, newline_not_mem_writeChar]

/-! ## Different strings -/

/-- The characters that do not stand for themselves between quotes. -/
def escaped : List Char := '"' :: '\\' :: (List.range 0x20).map Char.ofNat

theorem writeChar_of_not_mem_escaped {c : Char} (h : c ∉ escaped) : writeChar c = [c] := by
  simp only [escaped, List.mem_cons, not_or] at h
  obtain ⟨hquote, hbackslash, hcontrol⟩ := h
  have hlarge : ¬ c.toNat < 0x20 := fun hlt =>
    hcontrol (List.mem_map.2 ⟨c.toNat, List.mem_range.2 hlt, Char.ofNat_toNat c⟩)
  have hne : ∀ d : Char, d.toNat < 0x20 → c ≠ d := by
    rintro d hd rfl
    exact hlarge hd
  unfold writeChar
  rw [if_neg hquote, if_neg hbackslash, if_neg (hne _ (by decide)), if_neg (hne _ (by decide)),
    if_neg (hne _ (by decide)), if_neg (hne _ (by decide)), if_neg (hne _ (by decide)),
    if_neg hlarge]

theorem head?_writeChar_of_mem_escaped {c : Char} (h : c ∈ escaped) :
    (writeChar c).head? = some '\\' := by
  have hall : escaped.all fun c => (writeChar c).head? == some '\\' := by decide
  exact beq_iff_eq.1 (List.all_eq_true.1 hall c h)

/-- No escape begins with another one. -/
theorem eq_of_isPrefix_writeChar {c d : Char} (hc : c ∈ escaped) (hd : d ∈ escaped)
    (h : writeChar c <+: writeChar d) : c = d := by
  have hall : escaped.all fun c => escaped.all fun d =>
      !(writeChar c).isPrefixOf (writeChar d) || c == d := by decide +kernel
  have hcd := List.all_eq_true.1 (List.all_eq_true.1 hall c hc) d hd
  simpa [List.isPrefixOf_iff_prefix.2 h] using hcd

theorem writeChar_ne_nil (c : Char) : writeChar c ≠ [] := by
  by_cases hc : c ∈ escaped
  · rintro he
    exact nomatch (congrArg List.head? he).symm.trans (head?_writeChar_of_mem_escaped hc)
  · rw [writeChar_of_not_mem_escaped hc]
    exact List.cons_ne_nil _ _

/-- What a character is written as tells it apart from any other, whatever follows. -/
theorem writeChar_append_inj {c d : Char} {cs ds : List Char}
    (h : writeChar c ++ cs = writeChar d ++ ds) : c = d ∧ cs = ds := by
  have hne {e e' : Char} {es es' : List Char} (he : e ∈ escaped) (he' : e' ∉ escaped) :
      writeChar e ++ es ≠ writeChar e' ++ es' := by
    intro heq
    rw [writeChar_of_not_mem_escaped he'] at heq
    have hhead := congrArg List.head? heq
    rw [List.head?_append, head?_writeChar_of_mem_escaped he] at hhead
    exact he' (Option.some.inj hhead ▸ by decide)
  have hc : c = d := by
    by_cases hc : c ∈ escaped <;> by_cases hd : d ∈ escaped
    · have hd' : writeChar d <+: writeChar c ++ cs := h ▸ List.prefix_append _ _
      rcases List.prefix_or_prefix_of_prefix (List.prefix_append _ _) hd' with hprefix | hprefix
      · exact eq_of_isPrefix_writeChar hc hd hprefix
      · exact (eq_of_isPrefix_writeChar hd hc hprefix).symm
    · exact absurd h (hne hc hd)
    · exact absurd h.symm (hne hd hc)
    · rw [writeChar_of_not_mem_escaped hc, writeChar_of_not_mem_escaped hd] at h
      exact (List.cons.inj h).1
  subst hc
  exact ⟨rfl, List.append_cancel_left h⟩

/-- Two strings are equal if they are equal between quotes. -/
theorem writeString_injective : Function.Injective writeString := by
  have hbody {cs ds : List Char} (h : cs.flatMap writeChar = ds.flatMap writeChar) : cs = ds := by
    induction cs generalizing ds with
    | nil =>
      cases ds with
      | nil => rfl
      | cons d ds => exact absurd h.symm (by simp [writeChar_ne_nil])
    | cons c cs ih =>
      cases ds with
      | nil => exact absurd h (by simp [writeChar_ne_nil])
      | cons d ds =>
        rw [List.flatMap_cons, List.flatMap_cons] at h
        obtain ⟨hc, hcs⟩ := writeChar_append_inj h
        rw [hc, ih hcs]
  intro s t h
  exact String.toList_inj.1 (hbody (List.append_cancel_right (List.cons.inj h).2))

/-! ## Whole numbers -/

theorem readDigits?_toDigits (n : Nat) : readDigits? (Nat.toDigits 10 n) = some n := by
  have hdigits : (Nat.toDigits 10 n).all Char.isDigit :=
    List.all_eq_true.2 fun c hc => Nat.isDigit_of_mem_toDigits (by decide) (by decide) hc
  have hvalue : digitsValue (Nat.toDigits 10 n) = n := by
    unfold digitsValue
    rw [← Nat.ofDigitChars_eq_foldl]
    exact Nat.ofDigitChars_toDigits (by decide) (by decide)
  simp [readDigits?, hdigits, hvalue, Nat.toDigits_ne_nil]

theorem splitSign_toDigits (n : Nat) :
    splitSign (Nat.toDigits 10 n) = (false, Nat.toDigits 10 n) := by
  have hdigit : ∀ c ∈ Nat.toDigits 10 n, c.isDigit :=
    fun c hc => Nat.isDigit_of_mem_toDigits (by decide) (by decide) hc
  unfold splitSign
  split
  · rename_i he
    exact absurd (hdigit '+' (by simp [he])) (by decide)
  · rename_i he
    exact absurd (hdigit '-' (by simp [he])) (by decide)
  · rfl

/-- The digits of a whole number, with a minus before them if it is negative. -/
theorem toList_toString (n : Int) : (toString n).toList =
    if 0 ≤ n then Nat.toDigits 10 n.toNat else '-' :: Nat.toDigits 10 (-n).toNat := by
  rw [Int.toString_eq_repr, Int.repr_eq_if]
  split
  · exact Nat.toList_repr
  · rw [String.toList_append, Nat.toList_repr]
    rfl

/-- A whole number is read back from its digits. -/
theorem readInteger?_toString (n : Int) : readInteger? (toString n).toList = some n := by
  rw [toList_toString]
  split
  · simp only [readInteger?, splitSign_toDigits, readDigits?_toDigits]
    simp
    omega
  · simp only [readInteger?, splitSign, readDigits?_toDigits]
    simp
    omega

/-- The text of a whole number is a run of number characters that begins with a digit or a minus. -/
theorem isDigit_or_eq_of_mem_toString {n : Int} {c : Char} (h : c ∈ (toString n).toList) :
    c.isDigit ∨ c = '-' := by
  rw [toList_toString] at h
  split at h
  · exact .inl (Nat.isDigit_of_mem_toDigits (by decide) (by decide) h)
  · rcases List.mem_cons.1 h with h | h
    · exact .inr h
    · exact .inl (Nat.isDigit_of_mem_toDigits (by decide) (by decide) h)

theorem not_mem_toString {n : Int} {c : Char} (hdigit : c.isDigit = false) (hminus : c ≠ '-') :
    c ∉ (toString n).toList := by
  intro hc
  rcases isDigit_or_eq_of_mem_toString hc with hd | hm
  · exact absurd hd (by simp [hdigit])
  · exact hminus hm

theorem toString_ne_nil (n : Int) : (toString n).toList ≠ [] := by
  rw [toList_toString]
  split
  · exact Nat.toDigits_ne_nil
  · exact List.cons_ne_nil _ _

/-- A run is read up to where it ends. -/
theorem scanRun_append {p : Char → Bool} {run rest : List Char} (hne : run ≠ [])
    (h : ∀ c ∈ run, p c) (hrest : StopsAt p rest) : Reads (scanRun p (run ++ rest)) run rest := by
  obtain ⟨c, cs, rfl⟩ := List.exists_cons_of_ne_nil hne
  obtain ⟨hc, hcs⟩ := List.forall_mem_cons.1 h
  refine ⟨by simp only [List.length_append, List.length_cons]; omega, ?_⟩
  show scanRun p (c :: (cs ++ rest)) = _
  simp only [scanRun, if_pos hc, takeWhile_append_stop hcs hrest, dropWhile_append_stop hcs hrest]

theorem scanNumber_toString {n : Int} (hn : isInt64 n) {rest : List Char}
    (hrest : StopsAt isNumberChar rest) :
    Reads (scanNumber ((toString n).toList ++ rest)) (.int n) rest := by
  have hrun : ∀ c ∈ (toString n).toList, isNumberChar c := by
    intro c hc
    rcases isDigit_or_eq_of_mem_toString hc with hd | rfl
    · simp [isNumberChar, hd]
    · decide
  have hvalue : number? (toString n).toList = some (.int n) := by
    unfold number?
    rw [readInteger?_toString]
    exact if_pos hn
  obtain ⟨h, hscan⟩ := scanRun_append (toString_ne_nil n) hrun hrest
  refine ⟨h, ?_⟩
  unfold scanNumber
  rw [hscan]
  simp only [bind, Except.bind, hvalue]

end QueryRules.Json
