import Mathlib.Data.List.Induction
import Mathlib.Data.List.Nodup
import QueryRules.Proofs.Match.Walk
import QueryRules.Proofs.Text.Words

/-!
# What a look-up finds

- `Trie.ofInsertions`: the trie after some targets have been stored. `targets_ofInsertions` says
  what it stores under a text.
- `Picks`: a choice takes words at consecutive positions. `Trie.Finds`: what such a choice finds,
  said of the stored texts alone.
- `mem_walks_iff`: the walks over some positions are the choices, each with the texts that end in
  its last word. `pairwise_walks`: they come depth first.
- `Trie.lookup_exact`: so a look-up finds what the choices find, depth first and each hit once.
-/

namespace QueryRules

open Text (unwords)

/-- A choice takes these words: at each of the first positions an alternative that is not empty. -/
inductive Picks : List (List (List Char)) → List Nat → List (List Char) → Prop
  | nil {positions : List (List (List Char))} : Picks positions [] []
  | cons {alternatives : List (List Char)} {positions : List (List (List Char))} {i : Nat}
    {word : List Char} {choice : List Nat} {words : List (List Char)}
    (hi : alternatives[i]? = some word) (hne : word ≠ []) (h : Picks positions choice words) :
    Picks (alternatives :: positions) (i :: choice) (word :: words)

/-- A text is spelled by some words up to inside or up to the end of the last one: `rest` is the
part of the last word that it leaves out, if it leaves out any. -/
structure EndsInLast (words : List (List Char)) (text : List Char) (rest : Option (List Char)) :
    Prop where
  append_eq : text ++ rest.getD [] = unwords words
  rest_ne : rest ≠ some []
  length_lt : (rest.getD []).length < (words.getLast?.getD []).length

/-- The numbers of the alternatives that a walk takes. -/
def Walk.choice (w : Walk (List Char × Nat)) : List Nat := w.taken.map Prod.snd

/-- The words of the alternatives that a walk takes. -/
def Walk.words (w : Walk (List Char × Nat)) : List (List Char) := w.taken.map Prod.fst

/-! ## Texts that end in the last word -/

section Texts

variable {word text : List Char} {words : List (List Char)} {rest : Option (List Char)}

theorem EndsInLast.ne_nil (h : EndsInLast words text rest) : words ≠ [] := by
  rintro rfl
  exact absurd h.length_lt (Nat.not_lt_zero _)

theorem endsInLast_none (hne : word ≠ []) : EndsInLast [word] text none ↔ text = word := by
  constructor
  · intro h
    simpa using h.append_eq
  · rintro rfl
    exact ⟨by simp, nofun, List.length_pos_iff.2 hne⟩

theorem endsInLast_some {cs : List Char} :
    EndsInLast [word] text (some cs) ↔ (text, cs) ∈ cuts word := by
  rw [mem_cuts]
  constructor
  · intro ⟨happend, hne, hlt⟩
    rw [Option.getD_some, Text.unwords_singleton] at happend
    refine ⟨happend.symm, ?_, fun hcs => hne (by rw [hcs])⟩
    rintro rfl
    rw [List.nil_append] at happend
    rw [happend] at hlt
    exact absurd hlt (Nat.lt_irrefl _)
  · rintro ⟨rfl, htext, hcs⟩
    refine ⟨by simp, by simpa using hcs, ?_⟩
    have := List.length_pos_iff.2 htext
    simp
    omega

theorem length_getLast?_le (words : List (List Char)) :
    (words.getLast?.getD []).length ≤ (unwords words).length := by
  induction words with
  | nil => exact Nat.zero_le _
  | cons word words ih =>
    rcases eq_or_ne words [] with rfl | hne
    · simp
    · rw [List.getLast?_cons_of_ne_nil hne, Text.unwords_cons word hne, List.length_append,
        List.length_cons]
      omega

/-- A text that ends in the last of several words has the first one and a space at its front. -/
theorem endsInLast_cons (hne : words ≠ []) {text' : List Char} :
    EndsInLast (word :: words) text' rest ↔
      ∃ text, text' = word ++ ' ' :: text ∧ EndsInLast words text rest := by
  constructor
  · intro ⟨happend, hrest, hlt⟩
    rw [List.getLast?_cons_of_ne_nil hne] at hlt
    rw [Text.unwords_cons word hne, List.append_cons, List.append_eq_append_iff] at happend
    rcases happend with ⟨cs, -, hcs⟩ | ⟨text, rfl, htext⟩
    · -- what is left out is no longer than the last word
      have hlength := congrArg List.length hcs
      have := length_getLast?_le words
      rw [List.length_append] at hlength
      omega
    · exact ⟨text, (List.append_cons ..).symm, htext.symm, hrest, hlt⟩
  · rintro ⟨text, rfl, happend, hrest, hlt⟩
    refine ⟨?_, hrest, by rwa [List.getLast?_cons_of_ne_nil hne]⟩
    rw [Text.unwords_cons word hne, ← happend, List.append_assoc, List.cons_append]

end Texts

/-! ## Walks and choices -/

section Choices

variable {positions : List (List (List Char))} {choice : List Nat} {words : List (List Char)}

/-- A choice takes an alternative for each of its words. -/
theorem Picks.exists_taken (h : Picks positions choice words) :
    ∃ taken : List (List Char × Nat), taken.map Prod.snd = choice ∧ taken.map Prod.fst = words := by
  induction h with
  | nil => exact ⟨[], rfl, rfl⟩
  | @cons _ _ i word _ _ _ _ _ ih =>
    obtain ⟨taken, rfl, rfl⟩ := ih
    exact ⟨(word, i) :: taken, rfl, rfl⟩

theorem Picks.ne_nil (h : Picks positions choice words) : ∀ w ∈ words, w ≠ [] := by
  induction h with
  | nil => exact nofun
  | cons _ hne _ ih => exact List.forall_mem_cons.2 ⟨hne, ih⟩

theorem Picks.length_getLast?_pos (h : Picks positions choice words) (hne : words ≠ []) :
    0 < (words.getLast?.getD []).length := by
  rw [List.getLast?_eq_some_getLast hne, Option.getD_some, List.length_pos_iff]
  exact h.ne_nil _ (List.getLast_mem hne)

end Choices

theorem mem_stops_iff {b : List Char × Nat} (hne : b.1 ≠ []) {w : Walk (List Char × Nat)} :
    w ∈ stops Prod.fst b ↔ w.taken = [b] ∧ EndsInLast [b.1] w.text w.rest := by
  obtain ⟨taken, text, rest⟩ := w
  cases rest with
  | none => simp [stops, endsInLast_none hne]
  | some cs => simp [stops, endsInLast_some, eq_comm, and_comm]

/-- The walks over some positions are the choices with the texts that end in their last word. -/
theorem mem_walks_iff {positions : List (List (List Char))} {w : Walk (List Char × Nat)} :
    w ∈ walks Prod.fst (positions.map List.zipIdx) ↔
      Picks positions w.choice w.words ∧ EndsInLast w.words w.text w.rest := by
  induction positions generalizing w with
  | nil =>
    simp only [List.map_nil, walks, List.not_mem_nil, false_iff]
    rintro ⟨hpicks, hends⟩
    generalize w.choice = choice at hpicks
    generalize w.words = words at hpicks hends
    cases hpicks
    exact hends.ne_nil rfl
  | cons alternatives positions ih =>
    simp only [List.map_cons, walks, List.mem_flatMap, List.mem_zipIdx_iff_getElem?]
    constructor
    · rintro ⟨b, hb, hw⟩
      split at hw
      · exact absurd hw List.not_mem_nil
      · rename_i hne
        rcases List.mem_append.1 hw with hw | hw
        · obtain ⟨htaken, hends⟩ := (mem_stops_iff hne).1 hw
          rw [Walk.choice, Walk.words, htaken]
          exact ⟨.cons hb hne .nil, hends⟩
        · obtain ⟨w', hw', rfl⟩ := List.mem_map.1 hw
          obtain ⟨hpicks, hends⟩ := ih.1 hw'
          exact ⟨.cons hb hne hpicks, (endsInLast_cons hends.ne_nil).2 ⟨_, rfl, hends⟩⟩
    · rintro ⟨hpicks, hends⟩
      obtain ⟨taken, text, rest⟩ := w
      simp only [Walk.choice, Walk.words] at hpicks hends ⊢
      cases taken with
      | nil => exact absurd rfl hends.ne_nil
      | cons b taken =>
        cases hpicks with
        | cons hi hne hpicks =>
          refine ⟨b, hi, ?_⟩
          rw [if_neg hne, List.mem_append]
          rcases eq_or_ne taken [] with rfl | htaken
          · exact .inl ((mem_stops_iff hne).2 ⟨rfl, hends⟩)
          · obtain ⟨text', rfl, hends'⟩ := (endsInLast_cons (by simpa using htaken)).1 hends
            exact .inr (List.mem_map.2 ⟨⟨taken, text', rest⟩, ih.2 ⟨hpicks, hends'⟩, rfl⟩)

/-! ## The order of walks -/

/-- The order of walks that go deep first. A choice comes before those that go on from it, and
before those that take a later alternative where they part; with one choice, short texts come
first. -/
def Walk.Before (w w' : Walk (List Char × Nat)) : Prop :=
  w.choice < w'.choice ∨
    w.choice = w'.choice ∧ (w'.rest.getD []).length < (w.rest.getD []).length

theorem pairwise_cuts (word : List Char) :
    (cuts word).Pairwise fun p p' => p'.2.length < p.2.length := by
  induction word with
  | nil => exact .nil
  | cons c cs ih =>
    rw [cuts]
    split
    · exact .nil
    · refine List.pairwise_cons.2 ⟨fun p hp => ?_, List.pairwise_map.2 ih⟩
      obtain ⟨⟨a, b⟩, hab, rfl⟩ := List.mem_map.1 hp
      obtain ⟨rfl, ha, -⟩ := mem_cuts.1 hab
      simp [List.length_pos_iff.2 ha]

theorem pairwise_stops (b : List Char × Nat) : (stops Prod.fst b).Pairwise Walk.Before := by
  refine List.pairwise_append.2 ⟨List.pairwise_map.2 ?_, List.pairwise_singleton _ _, ?_⟩
  · exact (pairwise_cuts b.1).imp fun hlt => .inr ⟨rfl, hlt⟩
  · intro w hw w' hw'
    obtain ⟨⟨a, c⟩, hac, rfl⟩ := List.mem_map.1 hw
    obtain rfl := List.mem_singleton.1 hw'
    exact .inr ⟨rfl, List.length_pos_iff.2 (mem_cuts.1 hac).2.2⟩

theorem Walk.Before.cons {w w' : Walk (List Char × Nat)} (h : w.Before w') (b : List Char × Nat) :
    (w.cons b b.1).Before (w'.cons b b.1) := by
  rcases h with hlt | ⟨heq, hlt⟩
  · exact .inl (List.cons_lt_cons_iff.2 (.inr ⟨rfl, hlt⟩))
  · exact .inr ⟨congrArg (b.2 :: ·) heq, hlt⟩

/-- What comes first in the walks that begin with an alternative. -/
theorem exists_choice_eq_cons {b : List Char × Nat} {ws : List (Walk (List Char × Nat))}
    {w : Walk (List Char × Nat)} (h : w ∈ stops Prod.fst b ++ ws.map (Walk.cons b b.1)) :
    ∃ choice, w.choice = b.2 :: choice := by
  rcases List.mem_append.1 h with h | h
  · rcases List.mem_append.1 h with h | h
    · obtain ⟨p, -, rfl⟩ := List.mem_map.1 h
      exact ⟨[], rfl⟩
    · obtain rfl := List.mem_singleton.1 h
      exact ⟨[], rfl⟩
  · obtain ⟨w', -, rfl⟩ := List.mem_map.1 h
    exact ⟨w'.choice, rfl⟩

/-- Walks come depth first. -/
theorem pairwise_walks (positions : List (List (List Char))) :
    (walks Prod.fst (positions.map List.zipIdx)).Pairwise Walk.Before := by
  induction positions with
  | nil => exact .nil
  | cons alternatives positions ih =>
    have hnumbers : alternatives.zipIdx.Pairwise fun b b' => b.2 < b'.2 := by
      rw [← List.pairwise_map, List.zipIdx_map_snd]
      exact List.pairwise_lt_range'
    rw [List.map_cons, walks, List.pairwise_flatMap]
    constructor
    · intro b _
      split
      · exact .nil
      · refine List.pairwise_append.2 ⟨pairwise_stops b, ?_, fun w hw w' hw' => .inl ?_⟩
        · exact List.pairwise_map.2 (ih.imp fun h => h.cons b)
        · -- the walks that stop at the first position come before those that go on
          obtain ⟨v, hv, rfl⟩ := List.mem_map.1 hw'
          have hchoice : w.choice = [b.2] := by
            rcases List.mem_append.1 hw with hw | hw
            · obtain ⟨p, -, rfl⟩ := List.mem_map.1 hw
              rfl
            · obtain rfl := List.mem_singleton.1 hw
              rfl
          obtain ⟨i, choice, hne⟩ := List.exists_cons_of_ne_nil (l := v.choice) (by
            have := (mem_walks_iff.1 hv).2.ne_nil
            simpa [Walk.choice, Walk.words] using this)
          rw [hchoice, show (v.cons b b.1).choice = b.2 :: v.choice from rfl, hne]
          exact List.cons_lt_cons_iff.2 (.inr ⟨rfl, List.nil_lt_cons i choice⟩)
    · refine hnumbers.imp fun {b b'} hlt w hw w' hw' => .inl ?_
      split at hw
      · exact absurd hw List.not_mem_nil
      · split at hw'
        · exact absurd hw' List.not_mem_nil
        · obtain ⟨choice, hw⟩ := exists_choice_eq_cons hw
          obtain ⟨choice', hw'⟩ := exists_choice_eq_cons hw'
          rw [hw, hw']
          exact List.cons_lt_cons_iff.2 (.inl hlt)

namespace Trie

variable {α : Type}

/-! ## The order of hits -/

/-- The order of hits that are found depth first: by their choice, and with one choice short texts
come first. -/
def Hit.Before (h h' : Hit α) : Prop :=
  h.choice < h'.choice ∨
    h.choice = h'.choice ∧ (h'.suffix.getD []).length < (h.suffix.getD []).length

instance : Std.Irrefl (@Hit.Before α) where
  irrefl h hlt := by
    rcases hlt with hlt | ⟨-, hlt⟩
    · exact absurd hlt (List.lt_irrefl _)
    · exact absurd hlt (Nat.lt_irrefl _)

/-- The hit of a walk from the first position on. -/
theorem hit?_eq_some_iff {t : Trie α} {start : Nat} {w : Walk (List Char × Nat)} {hit : Hit α} :
    t.hit? start [] w = some hit ↔ (t.targets w.rest.isSome w.text).isEmpty = false ∧
      hit = ⟨t.targets w.rest.isSome w.text, start, w.choice, w.rest⟩ := by
  rw [hit?, List.nil_append, Option.ite_none_left_eq_some, Bool.not_eq_true, Option.some.injEq]
  exact and_congr_right fun _ => eq_comm

/-! ## What is stored under a text -/

/-- A target to store under a text, for exact use or as the start of longer texts. -/
structure Insertion (α : Type) where
  isPrefix : Bool
  key : List Char
  target : α
  deriving DecidableEq, Repr

variable [DecidableEq α] {is : List (Insertion α)}

/-- The trie after some targets have been stored one after the other. -/
def ofInsertions (is : List (Insertion α)) : Trie α :=
  is.foldl (fun t i => t.insert i.isPrefix i.target i.key) empty

/-- The different targets to store under a text, in the order in which they first come. -/
def storedTargets (is : List (Insertion α)) (isPrefix : Bool) (key : List Char) : List α :=
  ((is.filter fun i => i.isPrefix = isPrefix ∧ i.key = key).map (·.target)).eraseDups

/-- Some target is to be stored under a text. -/
def IsStored (is : List (Insertion α)) (isPrefix : Bool) (key : List Char) : Prop :=
  ∃ i ∈ is, i.isPrefix = isPrefix ∧ i.key = key

theorem storedTargets_isEmpty {isPrefix : Bool} {key : List Char} :
    (storedTargets is isPrefix key).isEmpty = false ↔ IsStored is isPrefix key := by
  rw [List.isEmpty_eq_false_iff_exists_mem]
  simp [storedTargets, IsStored, and_assoc]

theorem addNew_eraseDups (a : α) (l : List α) : addNew a l.eraseDups = (l ++ [a]).eraseDups := by
  rw [addNew, List.eraseDups_append]
  by_cases ha : a ∈ l <;> simp [ha, List.removeAll, List.mem_eraseDups, List.eraseDups_cons]

/-- Under a text a trie has the different targets that were stored there, in their order. -/
theorem targets_ofInsertions (is : List (Insertion α)) (isPrefix : Bool) (key : List Char) :
    (ofInsertions is).targets isPrefix key = storedTargets is isPrefix key := by
  induction is using List.reverseRecOn with
  | nil => exact targets_empty isPrefix key
  | append_singleton is i ih =>
    rw [ofInsertions, List.foldl_concat, targets_insert, ← ofInsertions, ih]
    by_cases hi : isPrefix = i.isPrefix ∧ key = i.key
    · obtain ⟨rfl, rfl⟩ := hi
      simp [storedTargets, addNew_eraseDups]
    · have hi' : ¬ (i.isPrefix = isPrefix ∧ i.key = key) := fun h => hi ⟨h.1.symm, h.2.symm⟩
      simp [storedTargets, hi, hi']

/-! ## What choices find -/

/-- What a choice finds that takes these words: the targets for exactly the text that the words
join to, and for every proper start of that text that goes into the last word the targets for longer
texts. -/
inductive Finds (is : List (Insertion α)) (start : Nat) (choice : List Nat)
    (words : List (List Char)) : Hit α → Prop
  | whole (h : IsStored is false (unwords words)) :
    Finds is start choice words ⟨storedTargets is false (unwords words), start, choice, none⟩
  | beginning {key rest last : List Char} (h : IsStored is true key)
    (hjoin : unwords words = key ++ rest) (hne : rest ≠ []) (hlast : words.getLast? = some last)
    (hlt : rest.length < last.length) :
    Finds is start choice words ⟨storedTargets is true key, start, choice, some rest⟩

/-- A choice finds the texts that end in the last of its words and are stored. -/
theorem finds_iff {start : Nat} {choice : List Nat} {words : List (List Char)} {hit : Hit α}
    (hlast : 0 < (words.getLast?.getD []).length) :
    Finds is start choice words hit ↔ ∃ key rest, EndsInLast words key rest ∧
      IsStored is rest.isSome key ∧
        hit = ⟨storedTargets is rest.isSome key, start, choice, rest⟩ := by
  constructor
  · rintro (h | ⟨h, hjoin, hne, hlast, hlt⟩)
    · exact ⟨_, none, ⟨List.append_nil _, nofun, hlast⟩, h, rfl⟩
    · exact ⟨_, some _, ⟨hjoin.symm, by simpa using hne, by rwa [hlast]⟩, h, rfl⟩
  · rintro ⟨key, rest, ⟨hjoin, hne, hlt⟩, h, rfl⟩
    cases rest with
    | none =>
      rw [Option.getD_none, List.append_nil] at hjoin
      subst hjoin
      exact .whole h
    | some rest =>
      cases hw : words.getLast? with
      | none =>
        rw [hw] at hlt
        exact absurd hlt (Nat.not_lt_zero _)
      | some last =>
        rw [hw] at hlt
        exact .beginning h hjoin.symm (fun hnil => hne (by rw [hnil])) hw hlt

/-- A look-up finds just what the choices from its first position on find, in the order of a search
that goes deep first and without repetition. -/
theorem lookup_exact (is : List (Insertion α)) (positions : List (List (List Char)))
    (start : Nat) :
    (∀ hit, hit ∈ (ofInsertions is).lookup positions start ↔
      ∃ choice words, choice ≠ [] ∧ Picks (positions.drop start) choice words ∧
        Finds is start choice words hit) ∧
    ((ofInsertions is).lookup positions start).Pairwise Hit.Before ∧
    ((ofInsertions is).lookup positions start).Nodup := by
  have horder : ((ofInsertions is).lookup positions start).Pairwise Hit.Before := by
    rw [lookup_eq]
    refine (pairwise_walks (positions.drop start)).filterMap _ fun w w' hlt hit h hit' h' => ?_
    obtain ⟨-, rfl⟩ := hit?_eq_some_iff.1 h
    obtain ⟨-, rfl⟩ := hit?_eq_some_iff.1 h'
    exact hlt
  refine ⟨fun hit => ?_, horder, horder.nodup⟩
  rw [lookup_eq, List.mem_filterMap]
  simp only [mem_walks_iff, hit?_eq_some_iff, targets_ofInsertions, storedTargets_isEmpty]
  constructor
  · rintro ⟨w, ⟨hpicks, hends⟩, hstored, rfl⟩
    refine ⟨w.choice, w.words, ?_, hpicks, (finds_iff ?_).2 ⟨_, _, hends, hstored, rfl⟩⟩
    · simpa [Walk.choice, Walk.words] using hends.ne_nil
    · exact Nat.zero_lt_of_lt hends.length_lt
  · rintro ⟨choice, words, hne, hpicks, hfinds⟩
    obtain ⟨taken, rfl, rfl⟩ := hpicks.exists_taken
    have hlast := hpicks.length_getLast?_pos (by simpa using hne)
    obtain ⟨key, rest, hends, hstored, rfl⟩ := (finds_iff hlast).1 hfinds
    exact ⟨⟨taken, key, rest⟩, ⟨hpicks, hends⟩, hstored, rfl⟩

end Trie

end QueryRules
