import QueryRules.Proofs.Except
import QueryRules.Proofs.Formula
import QueryRules.Proofs.RuleText.Readers

/-!
# The grammar of conditions

`Grammar.Derives ts f`: the tokens `ts` are a formula `f` by the levels of precedence, `OR` below
`AND` below `NOT`. A level with one operand stands for that operand.

- `soundAt`: what a reader reads, the tokens before what it leaves derive. By strong induction on
  the number of tokens; at one number the levels follow from each other.
- `Grammar.Disjuncts.reads` and the like: tokens that derive a formula are read as it, if none of
  the tokens that could go on with it follows (`LeftWith`). By induction on the derivation.
- `readFormula_iff_derives`: a text is read as a formula exactly if its blanks are layout and the
  tokens that it falls into derive the formula.
-/

namespace QueryRules.RuleText

open QueryRules.Text

namespace Grammar

mutual

/-- Conjunctions with `OR` between them. -/
inductive Disjuncts : List Token → List (Formula (List Char)) → Prop
  | one {ts : List Token} {fs : List (Formula (List Char))} (h : Conjuncts ts fs) :
      Disjuncts ts [conjunction fs]
  | more {ts us : List Token} {fs gs : List (Formula (List Char))} (h : Conjuncts ts fs)
      (h' : Disjuncts us gs) : Disjuncts (ts ++ .word orWord :: us) (conjunction fs :: gs)

/-- Negations with `AND` between them. -/
inductive Conjuncts : List Token → List (Formula (List Char)) → Prop
  | one {ts : List Token} {f : Formula (List Char)} (h : Negation ts f) : Conjuncts ts [f]
  | more {ts us : List Token} {f : Formula (List Char)} {gs : List (Formula (List Char))}
      (h : Negation ts f) (h' : Conjuncts us gs) :
      Conjuncts (ts ++ .word andWord :: us) (f :: gs)

/-- A primary with any number of `NOT` before it. -/
inductive Negation : List Token → Formula (List Char) → Prop
  | not {ts : List Token} {f : Formula (List Char)} (h : Negation ts f) :
      Negation (.word notWord :: ts) (.not f)
  | primary {ts : List Token} {f : Formula (List Char)} (h : Primary ts f) : Negation ts f

/-- A disjunction in parentheses, or one or more words that are no operators. -/
inductive Primary : List Token → Formula (List Char) → Prop
  | parentheses {ts : List Token} {fs : List (Formula (List Char))} (h : Disjuncts ts fs) :
      Primary (.opening :: (ts ++ [.closing])) (disjunction fs)
  | words {ws : List (List Char)} (hne : ws ≠ []) (hws : ∀ w ∈ ws, isOperator w = false) :
      Primary (ws.map .word) (.literal (unwords ws))

end

/-- The tokens are a disjunction. -/
def Derives (ts : List Token) (f : Formula (List Char)) : Prop :=
  ∃ fs, Disjuncts ts fs ∧ f = disjunction fs

/-- A primary begins with a parenthesis or with a word that is no operator. -/
theorem Primary.exists_cons {ts : List Token} {f : Formula (List Char)} (h : Primary ts f) :
    ∃ t us, ts = t :: us ∧ t ≠ .word notWord := by
  cases h with
  | parentheses h => exact ⟨_, _, rfl, Token.noConfusion⟩
  | words hne hws =>
    obtain ⟨w, ws, rfl⟩ := List.exists_cons_of_ne_nil hne
    refine ⟨.word w, ws.map .word, rfl, ?_⟩
    rintro ⟨⟩
    exact absurd (hws notWord List.mem_cons_self) (by decide)

mutual

/-- No blank is a token of a formula. -/
theorem Disjuncts.blank_not_mem {ts : List Token} {fs : List (Formula (List Char))}
    (h : Disjuncts ts fs) : .blank ∉ ts :=
  match h with
  | .one h => h.blank_not_mem
  | .more h h' => by simp [h.blank_not_mem, h'.blank_not_mem]

theorem Conjuncts.blank_not_mem {ts : List Token} {fs : List (Formula (List Char))}
    (h : Conjuncts ts fs) : .blank ∉ ts :=
  match h with
  | .one h => h.blank_not_mem
  | .more h h' => by simp [h.blank_not_mem, h'.blank_not_mem]

theorem Negation.blank_not_mem {ts : List Token} {f : Formula (List Char)}
    (h : Negation ts f) : .blank ∉ ts :=
  match h with
  | .not h => by simp [h.blank_not_mem]
  | .primary h => h.blank_not_mem

theorem Primary.blank_not_mem {ts : List Token} {f : Formula (List Char)}
    (h : Primary ts f) : .blank ∉ ts :=
  match h with
  | .parentheses h => by simp [h.blank_not_mem]
  | .words hne hws => by simp

end

end Grammar

open Grammar

theorem map_disjunction {α β : Type} (g : α → β) (fs : List (Formula α)) :
    (disjunction fs).map g = disjunction (fs.map (Formula.map g)) := by
  match fs with
  | [] => rfl
  | [f] => rfl
  | f :: f' :: fs => exact congrArg Formula.any (Formula.mapList_eq g _)

theorem map_conjunction {α β : Type} (g : α → β) (fs : List (Formula α)) :
    (conjunction fs).map g = conjunction (fs.map (Formula.map g)) := by
  match fs with
  | [] => rfl
  | [f] => rfl
  | f :: f' :: fs => exact congrArg Formula.all (Formula.mapList_eq g _)

/-! ## What is read is derived -/

/-- What is read at the start of some tokens, those of them that are not left derive. -/
structure SoundAt (ts : List Placed) : Prop where
  disjuncts : ∀ {fs rest}, Reads (readDisjuncts ts) fs rest → ∃ front, ts = front ++ rest ∧
    Disjuncts (front.map Placed.token) (fs.map (Formula.map unwords))
  conjuncts : ∀ {fs rest}, Reads (readConjuncts ts) fs rest → ∃ front, ts = front ++ rest ∧
    Conjuncts (front.map Placed.token) (fs.map (Formula.map unwords))
  negation : ∀ {f rest}, Reads (readNegation ts) f rest → ∃ front, ts = front ++ rest ∧
    Negation (front.map Placed.token) (f.map unwords)
  primary : ∀ {f rest}, Reads (readPrimary ts) f rest → ∃ front, ts = front ++ rest ∧
    Primary (front.map Placed.token) (f.map unwords)

theorem soundAt (ts : List Placed) : SoundAt ts := by
  induction hn : ts.length using Nat.strongRecOn generalizing ts with
  | ind n ih =>
    subst hn
    have hlonger {front us : List Placed} {t : Placed} : us.length < (front ++ t :: us).length := by
      rw [List.length_append, List.length_cons]
      omega
    -- Without a token of its own a level reads at the same place as the one below it, so that
    -- the levels are taken from the innermost one.
    have hprimary {f rest} (h : Reads (readPrimary ts) f rest) : ∃ front, ts = front ++ rest ∧
        Primary (front.map Placed.token) (f.map unwords) := by
      rcases reads_readPrimary_iff.1 h with ⟨-, ws, hws, rfl⟩ |
        ⟨t, ts₁, fs, t', rfl, ht, hfs, ht', rfl⟩
      · obtain ⟨front, rfl, hne, hwords⟩ := exists_of_reads_readWords hws
        obtain ⟨htokens, hplain⟩ := map_plainWord?_eq_iff.1 hwords
        refine ⟨front, rfl, ?_⟩
        rw [htokens]
        refine .words ?_ hplain
        rintro rfl
        exact hne (List.map_eq_nil_iff.1 htokens)
      · obtain ⟨front, rfl, hfront⟩ := (ih _ (Nat.lt_succ_self _) _ rfl).disjuncts hfs
        refine ⟨t :: (front ++ [t']), by simp, ?_⟩
        rw [map_disjunction]
        simpa [ht, ht'] using Primary.parentheses hfront
    have hnegation {f rest} (h : Reads (readNegation ts) f rest) : ∃ front, ts = front ++ rest ∧
        Negation (front.map Placed.token) (f.map unwords) := by
      rcases reads_readNegation_iff.1 h with ⟨-, hf⟩ | ⟨t, ts₁, g, rfl, ht, hg, rfl⟩
      · obtain ⟨front, hts, hfront⟩ := hprimary hf
        exact ⟨front, hts, .primary hfront⟩
      · obtain ⟨front, rfl, hfront⟩ := (ih _ (Nat.lt_succ_self _) _ rfl).negation hg
        refine ⟨t :: front, rfl, ?_⟩
        rw [List.map_cons, ht]
        exact .not hfront
    have hconjuncts {fs rest} (h : Reads (readConjuncts ts) fs rest) : ∃ front, ts = front ++ rest ∧
        Conjuncts (front.map Placed.token) (fs.map (Formula.map unwords)) := by
      obtain ⟨f, ts₁, hf, ⟨-, rfl, rfl⟩ | ⟨t, ts₂, gs, rfl, ht, hgs, rfl⟩⟩ :=
        reads_readConjuncts_iff.1 h
      · obtain ⟨front, hts, hfront⟩ := hnegation hf
        exact ⟨front, hts, .one hfront⟩
      · obtain ⟨front, rfl, hfront⟩ := hnegation hf
        obtain ⟨front', rfl, hfront'⟩ := (ih _ hlonger _ rfl).conjuncts hgs
        refine ⟨front ++ t :: front', by simp, ?_⟩
        rw [List.map_append, List.map_cons, ht]
        exact .more hfront hfront'
    refine ⟨fun {fs rest} h => ?_, hconjuncts, hnegation, hprimary⟩
    obtain ⟨f, ts₁, hf, ⟨-, rfl, rfl⟩ | ⟨t, ts₂, gs, rfl, ht, hgs, rfl⟩⟩ :=
      reads_readDisjuncts_iff.1 h
    · obtain ⟨front, hts, hfront⟩ := hconjuncts hf
      refine ⟨front, hts, ?_⟩
      rw [List.map_singleton, map_conjunction]
      exact .one hfront
    · obtain ⟨front, rfl, hfront⟩ := hconjuncts hf
      obtain ⟨front', rfl, hfront'⟩ := (ih _ hlonger _ rfl).disjuncts hgs
      refine ⟨front ++ t :: front', by simp, ?_⟩
      rw [List.map_append, List.map_cons, ht, List.map_cons, map_conjunction]
      exact .more hfront hfront'

/-! ## What is derived is read -/

/-- If any token is left, it is one of these. -/
def LeftWith (follow : List Token) (rest : List Placed) : Prop :=
  ∀ t ∈ rest.head?, t.token ∈ follow

section

variable {follow follow' : List Token} {rest : List Placed}

theorem LeftWith.ne (h : LeftWith follow rest) {token : Token} (hne : token ∉ follow) :
    ∀ t ∈ rest.head?, t.token ≠ token := by
  rintro t ht rfl
  exact hne (h t ht)

theorem LeftWith.mono (h : LeftWith follow rest) (hsub : follow ⊆ follow') :
    LeftWith follow' rest := fun t ht => hsub (h t ht)

theorem leftWith_cons {t : Placed} : LeftWith follow (t :: rest) ↔ t.token ∈ follow := by
  simp [LeftWith]

/-- No plain word is left if what follows is a parenthesis or an operator. -/
theorem LeftWith.plainWord?_eq_none
    (h : LeftWith [.closing, .word orWord, .word andWord] rest) :
    ∀ t ∈ rest.head?, t.plainWord? = none := by
  rintro ⟨token, n⟩ ht
  rcases List.mem_cons.1 (h _ ht) with rfl | hop
  · rfl
  · simp only [List.mem_cons, List.not_mem_nil, or_false] at hop
    rcases hop with rfl | rfl <;> rfl

end

mutual

theorem Grammar.Disjuncts.reads {ts : List Token} {gs : List (Formula (List Char))}
    (h : Disjuncts ts gs) (front rest : List Placed) (hfront : front.map Placed.token = ts)
    (hrest : LeftWith [.closing] rest) :
    ∃ fs, Reads (readDisjuncts (front ++ rest)) fs rest ∧ fs.map (Formula.map unwords) = gs :=
  match h with
  | .one h => by
    obtain ⟨fs, hfs, rfl⟩ := h.reads front rest hfront (hrest.mono (by simp))
    refine ⟨_, reads_readDisjuncts_iff.2
      ⟨fs, rest, hfs, .inl ⟨hrest.ne (by simp), rfl, rfl⟩⟩, ?_⟩
    rw [List.map_singleton, map_conjunction]
  | .more h h' => by
    obtain ⟨front₁, us, rfl, hfront₁, hus⟩ := List.map_eq_append_iff.1 hfront
    obtain ⟨t, front₂, rfl, ht, hfront₂⟩ := List.map_eq_cons_iff.1 hus
    obtain ⟨fs, hfs, rfl⟩ :=
      h.reads front₁ (t :: (front₂ ++ rest)) hfront₁ (leftWith_cons.2 (by simp [ht]))
    obtain ⟨gs, hgs, rfl⟩ := h'.reads front₂ rest hfront₂ hrest
    rw [List.append_assoc, List.cons_append]
    refine ⟨_, reads_readDisjuncts_iff.2 ⟨fs, _, hfs, .inr ⟨t, _, gs, rfl, ht, hgs, rfl⟩⟩, ?_⟩
    rw [List.map_cons, map_conjunction]

theorem Grammar.Conjuncts.reads {ts : List Token} {gs : List (Formula (List Char))}
    (h : Conjuncts ts gs) (front rest : List Placed) (hfront : front.map Placed.token = ts)
    (hrest : LeftWith [.closing, .word orWord] rest) :
    ∃ fs, Reads (readConjuncts (front ++ rest)) fs rest ∧ fs.map (Formula.map unwords) = gs :=
  match h with
  | .one h => by
    obtain ⟨f, hf, rfl⟩ := h.reads front rest hfront (hrest.mono (by simp))
    exact ⟨_, reads_readConjuncts_iff.2
      ⟨f, rest, hf, .inl ⟨hrest.ne (by decide), rfl, rfl⟩⟩, rfl⟩
  | .more h h' => by
    obtain ⟨front₁, us, rfl, hfront₁, hus⟩ := List.map_eq_append_iff.1 hfront
    obtain ⟨t, front₂, rfl, ht, hfront₂⟩ := List.map_eq_cons_iff.1 hus
    obtain ⟨f, hf, rfl⟩ :=
      h.reads front₁ (t :: (front₂ ++ rest)) hfront₁ (leftWith_cons.2 (by simp [ht]))
    obtain ⟨gs, hgs, rfl⟩ := h'.reads front₂ rest hfront₂ hrest
    rw [List.append_assoc, List.cons_append]
    exact ⟨_, reads_readConjuncts_iff.2 ⟨f, _, hf, .inr ⟨t, _, gs, rfl, ht, hgs, rfl⟩⟩, rfl⟩

theorem Grammar.Negation.reads {ts : List Token} {g : Formula (List Char)} (h : Negation ts g)
    (front rest : List Placed) (hfront : front.map Placed.token = ts)
    (hrest : LeftWith [.closing, .word orWord, .word andWord] rest) :
    ∃ f, Reads (readNegation (front ++ rest)) f rest ∧ f.map unwords = g :=
  match h with
  | .not h => by
    obtain ⟨t, inner, rfl, ht, hinner⟩ := List.map_eq_cons_iff.1 hfront
    obtain ⟨f, hf, rfl⟩ := h.reads inner rest hinner hrest
    exact ⟨_, reads_readNegation_iff.2 (.inr ⟨t, _, f, rfl, ht, hf, rfl⟩), rfl⟩
  | .primary h => by
    obtain ⟨f, hf, rfl⟩ := h.reads front rest hfront hrest
    refine ⟨f, reads_readNegation_iff.2 (.inl ⟨?_, hf⟩), rfl⟩
    obtain ⟨token, us, rfl, hne⟩ := h.exists_cons
    obtain ⟨t, front, rfl, rfl, -⟩ := List.map_eq_cons_iff.1 hfront
    rintro t' ⟨⟩
    exact hne

theorem Grammar.Primary.reads {ts : List Token} {g : Formula (List Char)} (h : Primary ts g)
    (front rest : List Placed) (hfront : front.map Placed.token = ts)
    (hrest : LeftWith [.closing, .word orWord, .word andWord] rest) :
    ∃ f, Reads (readPrimary (front ++ rest)) f rest ∧ f.map unwords = g :=
  match h with
  | .parentheses h => by
    obtain ⟨t, inside, rfl, ht, hinside⟩ := List.map_eq_cons_iff.1 hfront
    obtain ⟨inner, last, rfl, hinner, hlast⟩ := List.map_eq_append_iff.1 hinside
    obtain ⟨t', rfl, ht'⟩ := List.map_eq_singleton_iff.1 hlast
    obtain ⟨fs, hfs, rfl⟩ :=
      h.reads inner (t' :: rest) hinner (leftWith_cons.2 (by simp [ht']))
    rw [List.cons_append, List.append_assoc, List.singleton_append]
    exact ⟨_, reads_readPrimary_iff.2 (.inr ⟨t, _, fs, t', rfl, ht, hfs, ht', rfl⟩),
      map_disjunction _ _⟩
  | .words hne hws => by
    have hplain := map_plainWord?_eq_iff.2 ⟨hfront, hws⟩
    have hfront' : front ≠ [] := by
      rintro rfl
      exact hne (List.map_eq_nil_iff.1 hfront.symm)
    refine ⟨_, reads_readPrimary_iff.2
      (.inl ⟨?_, _, reads_readWords hfront' hplain hrest.plainWord?_eq_none, rfl⟩), rfl⟩
    obtain ⟨t, front, rfl⟩ := List.exists_cons_of_ne_nil hfront'
    obtain ⟨w, -, -, ht, -⟩ := List.map_eq_cons_iff.1 hfront.symm
    rintro t' ⟨⟩
    rw [← ht]
    exact Token.noConfusion

end

/-! ## The reading of a text -/

theorem readFormula_eq_ok_iff {cs : List Char} {t : Formula (List (List Char))} :
    readFormula cs = .ok t ↔
      ∃ fs, Reads (readDisjuncts (tokens cs)) fs [] ∧ t = disjunction fs := by
  rw [readFormula]
  rcases readDisjuncts (tokens cs) with stop | ⟨fs, rest, h⟩
  · simp
  · simp only [reads_ok_iff]
    by_cases hrest : rest = []
    · simp [hrest, eq_comm]
    · simp [hrest, Ne.symm hrest]

theorem exists_readFormula {cs : List Char} {ts : List Token} {f : Formula (List Char)}
    (hlayout : ∀ c ∈ cs, isBlank c → isLayout c) (hcs : FallsInto cs ts) (h : Derives ts f) :
    ∃ raw, readFormula cs = .ok raw ∧ raw.map unwords = f := by
  obtain ⟨gs, hgs, rfl⟩ := h
  obtain ⟨fs, hfs, rfl⟩ := hgs.reads (tokens cs) [] (hcs.tokens_eq hlayout) nofun
  rw [List.append_nil] at hfs
  exact ⟨_, readFormula_eq_ok_iff.2 ⟨fs, hfs, rfl⟩, map_disjunction _ _⟩

/-- A text is read as a formula exactly if its blanks are layout and the tokens that it falls into
derive the formula. -/
theorem readFormula_iff_derives {cs : List Char} {t : Formula (List Char)} :
    (readFormula cs).map (Formula.map unwords) = .ok t ↔
      (∀ c ∈ cs, isBlank c → isLayout c) ∧ ∃ ts, FallsInto cs ts ∧ Derives ts t := by
  constructor
  · intro h
    obtain ⟨raw, hraw, rfl⟩ := exists_of_map_eq_ok h
    obtain ⟨fs, hfs, rfl⟩ := readFormula_eq_ok_iff.1 hraw
    obtain ⟨front, hfront, hderives⟩ := (soundAt _).disjuncts hfs
    rw [List.append_nil] at hfront
    rw [← hfront] at hderives
    have hlayout := blank_not_mem_tokens_iff.1 hderives.blank_not_mem
    obtain ⟨ts, hts⟩ := exists_fallsInto cs
    rw [hts.tokens_eq hlayout] at hderives
    exact ⟨hlayout, ts, hts, _, hderives, map_disjunction _ _⟩
  · rintro ⟨hlayout, ts, hts, hderives⟩
    obtain ⟨raw, hraw, rfl⟩ := exists_readFormula hlayout hts hderives
    rw [hraw]
    rfl

end QueryRules.RuleText
