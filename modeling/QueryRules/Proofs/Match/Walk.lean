import Mathlib.Data.List.Basic
import QueryRules.Match.Trie

/-!
# Walks over positions

A look-up in a trie tries every way through consecutive positions. `Walk` is such a way without the
trie: what is taken at each position, the text that this spells, and what is left of the last word.

- `walks` lists the walks that begin at the first position, depth first.
- `Trie.lookup_eq`: a look-up finds the walks under whose text the trie stores targets, in the order
  of the walks.
- `walks_map`: the walks do not depend on what else is known of the alternatives.
- `exists_alternatives_of_taken`: a walk takes one of the alternatives of each of its positions.
-/

namespace QueryRules

/-- A way through consecutive positions. `taken` is what it takes at each of them, `text` is made of
their words with spaces between them, and `rest` is the part of the last word that the text leaves
out, if it leaves out any. -/
structure Walk (β : Type) where
  taken : List β
  text : List Char
  rest : Option (List Char)

/-- The walk with other names for what it takes. -/
def Walk.map {β γ : Type} (g : β → γ) (w : Walk β) : Walk γ := { w with taken := w.taken.map g }

/-- The walk that takes one word more at its front. -/
def Walk.cons {β : Type} (b : β) (word : List Char) (w : Walk β) : Walk β :=
  { taken := b :: w.taken, text := word ++ ' ' :: w.text, rest := w.rest }

/-- The cuts of a word into two parts, neither of them empty; short first parts come first. -/
def cuts : List Char → List (List Char × List Char)
  | [] => []
  | c :: cs => if cs = [] then [] else ([c], cs) :: (cuts cs).map fun p => (c :: p.1, p.2)

/-- The walks that take only the given alternative: those that stop inside its word, then the one
that takes the whole word. -/
def stops {β : Type} (word : β → List Char) (b : β) : List (Walk β) :=
  (cuts (word b)).map (fun p => ⟨[b], p.1, some p.2⟩) ++ [⟨[b], word b, none⟩]

/-- The walks from the first position on, depth first. An alternative without a word is never
taken. -/
def walks {β : Type} (word : β → List Char) : List (List β) → List (Walk β)
  | [] => []
  | alternatives :: positions => alternatives.flatMap fun b =>
    if word b = [] then []
    else stops word b ++ (walks word positions).map (Walk.cons b (word b))

variable {α β γ : Type}

theorem mem_cuts {word a b : List Char} :
    (a, b) ∈ cuts word ↔ word = a ++ b ∧ a ≠ [] ∧ b ≠ [] := by
  induction word generalizing a with
  | nil =>
    simp only [cuts, List.not_mem_nil, false_iff]
    rintro ⟨h, ha, -⟩
    exact ha (List.append_eq_nil_iff.1 h.symm).1
  | cons c cs ih =>
    have hmap : (a, b) ∈ (cuts cs).map (fun p => (c :: p.1, p.2)) ↔
        ∃ a', cs = a' ++ b ∧ a' ≠ [] ∧ b ≠ [] ∧ a = c :: a' := by
      simp only [List.mem_map, Prod.mk.injEq, Prod.exists]
      constructor
      · rintro ⟨a', b', h, rfl, rfl⟩
        obtain ⟨h, ha, hb⟩ := ih.1 h
        exact ⟨a', h, ha, hb, rfl⟩
      · rintro ⟨a', h, ha, hb, rfl⟩
        exact ⟨a', b, ih.2 ⟨h, ha, hb⟩, rfl, rfl⟩
    rw [cuts]
    split
    · subst_vars
      cases a <;> simp_all
    · rename_i hcs
      simp only [List.mem_cons, hmap, Prod.mk.injEq]
      constructor
      · rintro (⟨rfl, rfl⟩ | ⟨a', rfl, ha, hb, rfl⟩)
        · exact ⟨rfl, by simp, hcs⟩
        · exact ⟨rfl, by simp, hb⟩
      · rintro ⟨h, ha, hb⟩
        obtain ⟨d, a', rfl⟩ := List.exists_cons_of_ne_nil ha
        obtain ⟨rfl, rfl⟩ := List.cons.inj h
        rcases eq_or_ne a' [] with rfl | ha'
        · exact .inl ⟨rfl, rfl⟩
        · exact .inr ⟨a', rfl, ha', hb, rfl⟩

/-! ## Walks and other names for the alternatives -/

theorem stops_map (word : γ → List Char) (g : β → γ) (b : β) :
    stops word (g b) = (stops (word ∘ g) b).map (Walk.map g) := by
  simp [stops, Walk.map, Function.comp_def]

/-- The walks over renamed alternatives are the renamed walks. -/
theorem walks_map (word : γ → List Char) (g : β → γ) (positions : List (List β)) :
    walks word (positions.map (List.map g)) = (walks (word ∘ g) positions).map (Walk.map g) := by
  induction positions with
  | nil => rfl
  | cons alternatives positions ih =>
    simp only [List.map_cons, walks, List.flatMap_map, List.map_flatMap]
    congr 1
    funext b
    simp only [Function.comp_apply]
    split
    · rfl
    · rw [ih, stops_map, List.map_append, List.map_map, List.map_map]
      rfl

/-- A walk takes at least one alternative, and no more than there are positions. -/
theorem length_taken {word : β → List Char} {positions : List (List β)} {w : Walk β}
    (h : w ∈ walks word positions) :
    0 < w.taken.length ∧ w.taken.length ≤ positions.length := by
  induction positions generalizing w with
  | nil => simp [walks] at h
  | cons alternatives positions ih =>
    simp only [walks, List.mem_flatMap] at h
    obtain ⟨b, -, h⟩ := h
    split at h
    · simp at h
    · simp only [stops, List.mem_append, List.mem_map, List.mem_singleton] at h
      rcases h with (⟨p, -, rfl⟩ | rfl) | ⟨w', hw, rfl⟩
      · simp
      · simp
      · have := ih hw
        simp only [Walk.cons, List.length_cons]
        omega

/-- A walk takes one of the alternatives of each of its positions. -/
theorem exists_alternatives_of_taken {word : β → List Char} {positions : List (List β)}
    {w : Walk β} (h : w ∈ walks word positions) {i : Nat} {b : β} (hb : w.taken[i]? = some b) :
    ∃ alternatives, positions[i]? = some alternatives ∧ b ∈ alternatives := by
  induction positions generalizing w i with
  | nil => simp [walks] at h
  | cons alternatives positions ih =>
    simp only [walks, List.mem_flatMap] at h
    obtain ⟨a, ha, h⟩ := h
    split at h
    · simp at h
    · simp only [stops, List.mem_append, List.mem_map, List.mem_singleton] at h
      cases i with
      | zero =>
        obtain rfl : a = b := by
          rcases h with (⟨p, -, rfl⟩ | rfl) | ⟨w', -, rfl⟩ <;> exact Option.some.inj hb
        exact ⟨alternatives, rfl, ha⟩
      | succ i =>
        rcases h with (⟨p, -, rfl⟩ | rfl) | ⟨w', hw, rfl⟩
        · exact nomatch hb
        · exact nomatch hb
        · exact ih hw hb

theorem mem_flatten_of_mem_taken {word : β → List Char} {positions : List (List β)} {w : Walk β}
    (h : w ∈ walks word positions) {b : β} (hb : b ∈ w.taken) : b ∈ positions.flatten := by
  obtain ⟨i, hi⟩ := List.mem_iff_getElem?.1 hb
  obtain ⟨alternatives, ha, hb⟩ := exists_alternatives_of_taken h hi
  exact List.mem_flatten.2 ⟨alternatives, List.mem_of_getElem? ha, hb⟩

/-! ## The look-up in a trie -/

namespace Trie

theorem targets_empty (isPrefix : Bool) (key : List Char) :
    (empty : Trie α).targets isPrefix key = [] := by
  cases key with
  | nil => cases isPrefix <;> rfl
  | cons c cs => rfl

theorem descend?_cons (t : Trie α) (c : Char) (cs : List Char) :
    t.descend? (c :: cs) = (t.child? c).bind (descend? · cs) := rfl

/-- What is stored under a text is stored under its end, one look further. -/
theorem targets_append (t : Trie α) (isPrefix : Bool) (key key' : List Char) :
    t.targets isPrefix (key ++ key') = ((t.descend? key).getD empty).targets isPrefix key' := by
  induction key generalizing t with
  | nil => rfl
  | cons c cs ih =>
    rw [List.cons_append, targets_cons, ih, descend?_cons]
    cases t.child? c with
    | some u => rfl
    | none => cases cs <;> rfl

/-- The targets that ask for a longer text, for every cut of a word under which there are any. -/
def cutTargets (t : Trie α) (p : List Char × List Char) : Option (List α × List Char) :=
  if (t.targets true p.1).isEmpty then none else some (t.targets true p.1, p.2)

/-- Spelling a word passes the cuts of the word and ends in the trie under the word. -/
theorem spell_eq (t : Trie α) (word : List Char) :
    t.spell word = ((cuts word).filterMap t.cutTargets, t.descend? word) := by
  induction word generalizing t with
  | nil => rfl
  | cons c cs ih =>
    have hcons (p : List Char × List Char) : t.cutTargets (c :: p.1, p.2) =
        (((t.child? c).getD empty).cutTargets p) := by
      simp only [cutTargets, targets_cons]
    rw [spell, cuts, descend?_cons]
    cases hu : t.child? c with
    | none =>
      have hnone (p : List Char × List Char) : t.cutTargets (c :: p.1, p.2) = none := by
        rw [hcons, hu]
        simp [cutTargets, targets_empty]
      rcases eq_or_ne cs [] with rfl | hcs
      · rfl
      · simp [hcs, hnone ([], cs), hnone]
    | some u =>
      simp only [ih, Option.bind_some]
      rcases eq_or_ne cs [] with rfl | hcs
      · simp [cuts]
      · have hfirst : t.cutTargets ([c], cs) = if u.starts.isEmpty then none
            else some (u.starts, cs) := by
          simp [cutTargets, targets_cons, hu]
        simp only [hcs, false_or, if_false, List.filterMap_cons, List.filterMap_map,
          Function.comp_def, hcons, hu, Option.getD_some, hfirst]
        split <;> simp

/-- The hit of a walk after some alternatives have been taken, if the trie stores targets under the
text of the walk. -/
def hit? (t : Trie α) (start : Nat) (choice : List Nat) (w : Walk (List Char × Nat)) :
    Option (Hit α) :=
  let targets := t.targets w.rest.isSome w.text
  if targets.isEmpty then none
  else some ⟨targets, start, choice ++ w.taken.map Prod.snd, w.rest⟩

/-- The trie from which the words at the next position are spelled: a space comes first unless
nothing has been taken. -/
def next? (t : Trie α) (choice : List Nat) : Option (Trie α) :=
  if choice = [] then some t else t.child? ' '

/-- A walk that takes one word more is a hit of the trie that the word leads to. -/
theorem hit?_cons (t : Trie α) (start : Nat) (choice : List Nat) (b : List Char × Nat)
    (w : Walk (List Char × Nat)) :
    t.hit? start choice (w.cons b b.1) =
      ((t.descend? b.1).bind (·.child? ' ')).bind (·.hit? start (choice ++ [b.2]) w) := by
  have ht : t.targets w.rest.isSome (b.1 ++ ' ' :: w.text) =
      (((t.descend? b.1).bind (·.child? ' ')).getD empty).targets w.rest.isSome w.text := by
    rw [targets_append, targets_cons]
    cases t.descend? b.1 <;> rfl
  simp only [hit?, Walk.cons, ht]
  cases (t.descend? b.1).bind (·.child? ' ') with
  | none => simp [targets_empty]
  | some u => simp

/-- The hits of a word on its own. -/
theorem filterMap_stops (t : Trie α) (start : Nat) (choice : List Nat) (b : List Char × Nat) :
    (stops Prod.fst b).filterMap (t.hit? start choice) =
      ((cuts b.1).filterMap t.cutTargets).map
          (fun p => ⟨p.1, start, choice ++ [b.2], some p.2⟩) ++
        match t.descend? b.1 with
        | none => []
        | some u => if u.exact.isEmpty then [] else [⟨u.exact, start, choice ++ [b.2], none⟩] := by
  rw [stops, List.filterMap_append]
  congr 1
  · rw [List.filterMap_map, List.map_filterMap]
    congr 1
    funext p
    simp only [Function.comp_apply, hit?, cutTargets, Option.isSome_some]
    split <;> simp
  · have ht : t.targets false b.1 = (((t.descend? b.1).getD empty).exact) := by
      simpa using t.targets_append false b.1 []
    simp only [List.filterMap_cons, List.filterMap_nil, hit?, Option.isSome_none, ht]
    cases t.descend? b.1 with
    | none => rfl
    | some u => cases h : u.exact.isEmpty <;> simp [h]

/-- The hits at some positions are the walks under whose text the trie stores targets. -/
theorem hitsFrom_eq (start : Nat) (t : Trie α) (choice : List Nat)
    (positions : List (List (List Char))) :
    t.hitsFrom start choice positions = ((t.next? choice).map fun u =>
      (walks Prod.fst (positions.map List.zipIdx)).filterMap (u.hit? start choice)).getD [] := by
  induction positions generalizing t choice with
  | nil => cases t.next? choice <;> rfl
  | cons alternatives positions ih =>
    rw [hitsFrom]
    change (match t.next? choice with | none => [] | some u => _) = _
    cases t.next? choice with
    | none => rfl
    | some u =>
      simp only [List.map_cons, walks, List.filterMap_flatMap, Option.map_some, Option.getD_some]
      congr 1
      funext b
      obtain ⟨word, i⟩ := b
      split
      · simp
      · simp only [spell_eq, List.filterMap_append, filterMap_stops, List.append_assoc,
          List.filterMap_map]
        have hcomp : u.hit? start choice ∘ Walk.cons (word, i) word = fun w =>
            ((u.descend? word).bind (·.child? ' ')).bind (·.hit? start (choice ++ [i]) w) :=
          funext fun w => hit?_cons u start choice (word, i) w
        rw [hcomp]
        cases u.descend? word with
        | none => simp
        | some v =>
          simp only [ih, next?, List.append_eq_nil_iff, List.cons_ne_nil, and_false, if_false,
            Option.bind_some]
          cases v.child? ' ' <;> simp

/-- A look-up finds, in the order of the walks, those under whose text the trie stores targets. -/
theorem lookup_eq (t : Trie α) (positions : List (List (List Char))) (start : Nat) :
    t.lookup positions start =
      (walks Prod.fst ((positions.drop start).map List.zipIdx)).filterMap (t.hit? start []) := by
  rw [lookup, hitsFrom_eq]
  rfl

/-- One more text in a trie adds its target under that text and changes nothing else. -/
theorem mem_targets_insert [DecidableEq α] {t : Trie α} {b b' : Bool} {a x : α}
    {key key' : List Char} :
    x ∈ (t.insert b a key).targets b' key' ↔
      x ∈ t.targets b' key' ∨ (b' = b ∧ key' = key ∧ x = a) := by
  rw [targets_insert]
  split <;> rename_i h
  · rw [addNew]
    split
    · constructor
      · exact .inl
      · rintro (h' | ⟨-, -, rfl⟩) <;> assumption
    · simp [h]
  · constructor
    · exact .inl
    · rintro (h' | h')
      · exact h'
      · exact absurd ⟨h'.1, h'.2.1⟩ h

/-- A target stands under a text at most once. -/
theorem nodup_targets_insert [DecidableEq α] {t : Trie α} {b b' : Bool} {a : α}
    {key key' : List Char} (h : (t.targets b' key').Nodup) :
    ((t.insert b a key).targets b' key').Nodup := by
  rw [targets_insert]
  split
  · rw [addNew]
    split
    · exact h
    · rename_i hm
      exact List.nodup_append.2 ⟨h, by simp, fun x hx y hy => by
        rintro rfl
        exact hm (List.mem_singleton.1 hy ▸ hx)⟩
  · exact h

end Trie

end QueryRules
