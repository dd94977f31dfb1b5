import Mathlib.Data.List.Basic
import QueryRules.Match.Run

/-!
# Hulls of spans

`Span.hullOf` is the smallest range that covers all spans of a list. It depends only on which spans
are in the list (`hullOf_congr`), and the hull of hulls is the hull of everything in them
(`hullOf_filterMap`).
-/

namespace QueryRules.Span

/-- The smallest range that covers all spans of a list, if there are any. -/
def hullOf : List Span → Option Span
  | [] => none
  | s :: ss => some (ss.foldl hull s)

@[simp] theorem hullOf_eq_none {ss : List Span} : hullOf ss = none ↔ ss = [] := by
  cases ss <;> simp [hullOf]

/-- One more span at the end. -/
theorem hullOf_concat (ss : List Span) (s : Span) :
    hullOf (ss ++ [s]) = some ((hullOf ss).elim s fun h => h.hull s) := by
  cases ss with
  | nil => rfl
  | cons t ss => rw [List.cons_append, hullOf, List.foldl_append]; rfl

/-- What is covered step by step begins and ends with one of the spans and covers all of them. -/
theorem foldl_hull_spec (t : Span) (ss : List Span) :
    (∃ s ∈ t :: ss, s.start = (ss.foldl hull t).start) ∧
      (∃ s ∈ t :: ss, s.stop = (ss.foldl hull t).stop) ∧
      ∀ s ∈ t :: ss, (ss.foldl hull t).start ≤ s.start ∧ s.stop ≤ (ss.foldl hull t).stop := by
  induction ss generalizing t with
  | nil => simp
  | cons u ss ih =>
    obtain ⟨⟨a, ha, ha'⟩, ⟨b, hb, hb'⟩, hall⟩ := ih (t.hull u)
    have hstart : (t.hull u).start = min t.start u.start := rfl
    have hstop : (t.hull u).stop = max t.stop u.stop := rfl
    rw [List.foldl_cons]
    refine ⟨?_, ?_, ?_⟩
    · rcases List.mem_cons.1 ha with rfl | ha
      · rcases Nat.le_total t.start u.start with hle | hle
        · exact ⟨t, by simp, by omega⟩
        · exact ⟨u, by simp, by omega⟩
      · exact ⟨a, by simp [ha], ha'⟩
    · rcases List.mem_cons.1 hb with rfl | hb
      · rcases Nat.le_total t.stop u.stop with hle | hle
        · exact ⟨u, by simp, by omega⟩
        · exact ⟨t, by simp, by omega⟩
      · exact ⟨b, by simp [hb], hb'⟩
    · have htop := hall (t.hull u) (by simp)
      intro s hs
      rcases List.mem_cons.1 hs with rfl | hs
      · omega
      · rcases List.mem_cons.1 hs with rfl | hs
        · omega
        · exact hall s (List.mem_cons_of_mem _ hs)

/-- The hull begins where the first of the spans begins and ends where the last one ends. -/
theorem hullOf_eq_some {ss : List Span} {h : Span} : hullOf ss = some h ↔
    (∃ s ∈ ss, s.start = h.start) ∧ (∃ s ∈ ss, s.stop = h.stop) ∧
      ∀ s ∈ ss, h.start ≤ s.start ∧ s.stop ≤ h.stop := by
  cases ss with
  | nil => simp [hullOf]
  | cons t ss =>
    obtain ⟨⟨a, ha, ha'⟩, ⟨b, hb, hb'⟩, hall⟩ := foldl_hull_spec t ss
    rw [hullOf, Option.some.injEq]
    constructor
    · rintro rfl
      exact foldl_hull_spec t ss
    · rintro ⟨⟨x, hx, hx'⟩, ⟨y, hy, hy'⟩, hall'⟩
      have h1 := hall x hx
      have h2 := hall y hy
      have h3 := hall' a ha
      have h4 := hall' b hb
      cases h
      rw [Span.mk.injEq]
      dsimp only at *
      omega

/-- The hull depends only on which spans are in the list. -/
theorem hullOf_congr {ss ts : List Span} (h : ∀ s, s ∈ ss ↔ s ∈ ts) : hullOf ss = hullOf ts := by
  cases hs : hullOf ss with
  | none =>
    obtain rfl := hullOf_eq_none.1 hs
    have : ts = [] := List.eq_nil_iff_forall_not_mem.2 fun s hs => by simpa using (h s).2 hs
    rw [this, hullOf]
  | some x =>
    refine (hullOf_eq_some.2 ?_).symm
    simpa only [h] using hullOf_eq_some.1 hs

/-- The hull of hulls is the hull of all the spans in them. -/
theorem hullOf_filterMap {β : Type} (f : β → List Span) (bs : List β) :
    hullOf (bs.filterMap fun b => hullOf (f b)) = hullOf (bs.flatMap f) := by
  have hsome {b : β} {x : Span} (hx : hullOf (f b) = some x) := hullOf_eq_some.1 hx
  cases hs : hullOf (bs.filterMap fun b => hullOf (f b)) with
  | none =>
    rw [hullOf_eq_none, List.filterMap_eq_nil_iff] at hs
    refine (hullOf_eq_none.2 ?_).symm
    rw [List.flatMap_eq_nil_iff]
    exact fun b hb => hullOf_eq_none.1 (hs b hb)
  | some h =>
    obtain ⟨⟨x, hx, hx'⟩, ⟨y, hy, hy'⟩, hall⟩ := hullOf_eq_some.1 hs
    obtain ⟨b, hb, hbx⟩ := List.mem_filterMap.1 hx
    obtain ⟨d, hd, hdy⟩ := List.mem_filterMap.1 hy
    obtain ⟨⟨s, hs, hs'⟩, -, -⟩ := hsome hbx
    obtain ⟨-, ⟨t, ht, ht'⟩, -⟩ := hsome hdy
    refine (hullOf_eq_some.2 ⟨⟨s, List.mem_flatMap.2 ⟨b, hb, hs⟩, hs'.trans hx'⟩,
      ⟨t, List.mem_flatMap.2 ⟨d, hd, ht⟩, ht'.trans hy'⟩, fun u hu => ?_⟩).symm
    obtain ⟨e, he, hu⟩ := List.mem_flatMap.1 hu
    cases hz : hullOf (f e) with
    | none => simp [hullOf_eq_none.1 hz] at hu
    | some z =>
      have h1 := (hsome hz).2.2 u hu
      have h2 := hall z (List.mem_filterMap.2 ⟨e, he, hz⟩)
      omega

end QueryRules.Span
