import Mathlib.Data.List.Flatten
import Mathlib.Data.List.Nodup
import Mathlib.Data.List.Perm.Basic
import Mathlib.Data.List.Sigma

/-!
# Collecting in another order

What is collected from two lists, or from a list by the places of its elements, is the same up to
order however it is collected.
-/

namespace QueryRules

variable {α β γ : Type}

/-- What every pair of two lists gives, collected by either list. -/
theorem flatMap_flatMap_perm (as : List α) (bs : List β) (f : α → β → List γ) :
    (as.flatMap fun a => bs.flatMap (f a)).Perm
      (bs.flatMap fun b => as.flatMap fun a => f a b) := by
  induction as with
  | nil => simp
  | cons a as ih =>
    simp only [List.flatMap_cons]
    exact (ih.append_left _).trans (List.flatMap_append_perm bs (f a) _)

theorem map_filter_eq_flatMap (p : α → Bool) (f : α → β) (as : List α) :
    (as.filter p).map f = as.flatMap fun a => if p a then [f a] else [] := by
  induction as with
  | nil => rfl
  | cons a as ih =>
    rw [List.filter_cons, List.flatMap_cons, ← ih]
    split <;> simp

theorem flatMap_filter_eq_flatMap (p : α → Bool) (f : α → List β) (as : List α) :
    (as.filter p).flatMap f = as.flatMap fun a => if p a then f a else [] := by
  induction as with
  | nil => rfl
  | cons a as ih =>
    rw [List.filter_cons, List.flatMap_cons, ← ih]
    split <;> simp

theorem flatMap_filterMap (f : α → Option β) (g : β → List γ) (as : List α) :
    (as.filterMap f).flatMap g = as.flatMap fun a => ((f a).map g).getD [] := by
  induction as with
  | nil => rfl
  | cons a as ih =>
    rw [List.filterMap_cons, List.flatMap_cons, ← ih]
    cases f a <;> rfl

/-- What different elements give is different if it tells which of them gave it. -/
theorem nodup_flatMap_of_owner {f : α → List β} {as : List α} (h : as.Nodup)
    (hf : ∀ a ∈ as, (f a).Nodup)
    (howner : ∀ a ∈ as, ∀ a' ∈ as, ∀ b ∈ f a, b ∈ f a' → a = a') : (as.flatMap f).Nodup :=
  List.nodup_flatMap.2 ⟨hf, h.pairwise_of_forall_ne fun a ha a' ha' hne =>
    List.disjoint_left.2 fun b hb hb' => hne (howner a ha a' ha' b hb hb')⟩

/-- What the pairs of two lists that fit give, collected by either list. -/
theorem flatMap_filter_perm (as : List α) (bs : List β) (p : α → β → Bool) (f : α → β → γ) :
    (as.flatMap fun a => (bs.filter (p a)).map (f a)).Perm
      (bs.flatMap fun b => (as.filter (p · b)).map (f · b)) := by
  simp only [map_filter_eq_flatMap]
  exact flatMap_flatMap_perm as bs fun a b => if p a b then [f a b] else []

/-- Elements with a property, and then those that have only a weaker one. -/
theorem filter_append_filter_perm {p q : α → Bool} (h : ∀ a, p a → q a) (as : List α) :
    (as.filter p ++ as.filter fun a => q a && !p a).Perm (as.filter q) := by
  have hp : (as.filter q).filter p = as.filter p := by
    rw [List.filter_filter]
    refine List.filter_congr fun a _ => ?_
    cases ha : p a with
    | false => rfl
    | true => rw [h a ha]; rfl
  have hq : (as.filter q).filter (fun a => !p a) = as.filter fun a => q a && !p a := by
    rw [List.filter_filter]
    exact List.filter_congr fun a _ => Bool.and_comm _ _
  rw [← hp, ← hq]
  exact List.filter_append_perm p (as.filter q)

/-- The elements at different places with these places, collected by the places or by the
elements. -/
theorem filterMap_getElem?_zipIdx_perm {places : List Nat} (h : places.Nodup) (as : List α) :
    (places.filterMap fun n => (as[n]?).map fun a => (a, n)).Perm
      (as.zipIdx.filter fun p => decide (p.2 ∈ places)) := by
  refine (List.perm_ext_iff_of_nodup ?_ ?_).2 fun p => ?_
  · refine List.Nodup.filterMap (fun n n' p hn hn' => ?_) h
    rw [Option.mem_def, Option.map_eq_some_iff] at hn hn'
    obtain ⟨a, -, rfl⟩ := hn
    obtain ⟨a', -, he⟩ := hn'
    exact (congrArg Prod.snd he).symm
  · exact (List.Nodup.of_map Prod.snd (List.nodup_zipIdx_map_snd as)).filter _
  · obtain ⟨a, n⟩ := p
    rw [List.mem_filter, List.mem_zipIdx_iff_getElem?]
    simp only [List.mem_filterMap, Option.map_eq_some_iff, Prod.mk.injEq, decide_eq_true_eq]
    constructor
    · rintro ⟨n', hn, a', ha, rfl, rfl⟩
      exact ⟨ha, hn⟩
    · rintro ⟨ha, hn⟩
      exact ⟨n, hn, a, ha, rfl, rfl⟩

theorem filterMap_getElem?_eq_map (places : List Nat) (as : List α) :
    (places.filterMap fun n => as[n]?) =
      (places.filterMap fun n => (as[n]?).map fun a => (a, n)).map Prod.fst := by
  rw [List.map_filterMap]
  refine List.filterMap_congr fun n _ => ?_
  cases as[n]? <;> rfl

/-- The elements at different places, collected by the places or by the elements. -/
theorem filterMap_getElem?_perm {places : List Nat} (h : places.Nodup) (as : List α) :
    (places.filterMap fun n => as[n]?).Perm
      ((as.zipIdx.filter fun p => decide (p.2 ∈ places)).map Prod.fst) := by
  rw [filterMap_getElem?_eq_map]
  exact (filterMap_getElem?_zipIdx_perm h as).map Prod.fst

/-- If the places ascend, the elements at them come in the order of the list. -/
theorem filterMap_getElem?_of_ascending {places : List Nat} (h : places.Pairwise (· < ·))
    (as : List α) : (places.filterMap fun n => as[n]?) =
      (as.zipIdx.filter fun p => decide (p.2 ∈ places)).map Prod.fst := by
  rw [filterMap_getElem?_eq_map]
  congr 1
  have hplaces : (places.filterMap fun n => (as[n]?).map fun a => (a, n)).Pairwise
      fun p q => p.2 < q.2 := by
    refine List.pairwise_filterMap.2 (h.imp fun {n m} hnm p hp q hq => ?_)
    obtain ⟨a, -, rfl⟩ := Option.map_eq_some_iff.1 hp
    obtain ⟨b, -, rfl⟩ := Option.map_eq_some_iff.1 hq
    exact hnm
  have hzip : (as.zipIdx.filter fun p => decide (p.2 ∈ places)).Pairwise
      fun p q => p.2 < q.2 := by
    refine List.Pairwise.filter _ (List.pairwise_map.1 ?_)
    rw [List.zipIdx_map_snd]
    exact List.pairwise_lt_range'
  exact List.Perm.eq_of_pairwise (fun p q _ _ hpq hqp => absurd hqp (Nat.lt_asymm hpq))
    hplaces hzip (filterMap_getElem?_zipIdx_perm (h.imp Nat.ne_of_lt) as)

/-- Elements chosen by a property of themselves, whether or not their places are known. -/
theorem map_filter_zipIdx (p : α → Bool) (as : List α) (n : Nat) :
    ((as.zipIdx n).filter fun q => p q.1).map Prod.fst = as.filter p := by
  rw [← Function.comp_def p Prod.fst, ← List.filter_map, List.zipIdx_map_fst]

/-- Elements at the same places of two lists, kept and changed in the same way. -/
theorem filterMap_zipIdx_congr {f : α × Nat → Option γ} {g : β → Option γ} {as : List α}
    {bs : List β} {n : Nat} (hlen : as.length = bs.length)
    (h : ∀ k a b, as[k]? = some a → bs[k]? = some b → f (a, n + k) = g b) :
    (as.zipIdx n).filterMap f = bs.filterMap g := by
  induction as generalizing bs n with
  | nil => rw [List.eq_nil_of_length_eq_zero hlen.symm]; rfl
  | cons a as ih =>
    cases bs with
    | nil => simp at hlen
    | cons b bs =>
      have hb := h 0 a b rfl rfl
      have hlen : as.length = bs.length := by simpa using hlen
      have hrest := ih hlen fun k a b ha hb => by
        have := h (k + 1) a b ha hb
        rwa [show n + (k + 1) = n + 1 + k by omega] at this
      rw [List.zipIdx_cons, List.filterMap_cons, List.filterMap_cons, hrest, ← hb]
      rfl

/-- A value that does not get lost again is gained at one place, if at all. -/
theorem length_filter_gained {b : Nat → Bool} (h0 : b 0 = false)
    (h : ∀ n, b n = true → b (n + 1) = true) (n : Nat) :
    ((List.range n).filter fun i => b (i + 1) && !b i).length = if b n then 1 else 0 := by
  induction n with
  | zero => simp [h0]
  | succ n ih =>
    rw [List.range_succ, List.filter_append, List.length_append, ih]
    cases hn : b n with
    | true => simp [hn, h n hn]
    | false => cases hs : b (n + 1) <;> simp [hn, hs]

end QueryRules
