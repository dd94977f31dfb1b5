import Mathlib.Data.List.Basic
import QueryRules.Text.Reading

/-!
# What a reading gives and what it leaves

- `Text.Reads r a rest`: the reading `r` gives `a` and leaves `rest`. It goes through the ways in
  which readings are put together, and back (`Text.reads_map_iff`, `Text.reads_weaken_iff`).
- `Text.takeWhile_append_stop`, `Text.dropWhile_append_stop`: a run ends where it can go on no
  longer.
- `Text.skip_of_stopsAt`: there is nothing to pass over in a text that does not begin with layout.
-/

namespace QueryRules.Text

variable {ε σ α β : Type} {l k : List σ}

/-- The reading gives `a` and leaves `rest`. -/
def Reads (r : Reading ε σ α l) (a : α) (rest : List σ) : Prop := ∃ h, r = .ok (a, ⟨rest, h⟩)

theorem Reads.weaken {r : Reading ε σ α k} {a : α} {rest : List σ} (h : Reads r a rest)
    (hk : k.length ≤ l.length) : Reads (r.weaken hk) a rest := by
  obtain ⟨hr, rfl⟩ := h
  exact ⟨Nat.lt_of_lt_of_le hr hk, rfl⟩

theorem Reads.past {r : Reading ε σ α l} {a : α} {rest : List σ} (h : Reads r a rest) (x : σ) :
    Reads (r.past : Reading ε σ α (x :: l)) a rest := h.weaken _

theorem Reads.map {r : Reading ε σ α l} {a : α} {rest : List σ} (h : Reads r a rest) (f : α → β) :
    Reads (r.map f) (f a) rest := by
  obtain ⟨hr, rfl⟩ := h
  exact ⟨hr, rfl⟩

theorem reads_ok_iff {a b : α} {rest : { rest : List σ // rest.length < l.length }}
    {us : List σ} : Reads (.ok (a, rest) : Reading ε σ α l) b us ↔ b = a ∧ us = rest.1 := by
  obtain ⟨rest, h⟩ := rest
  constructor
  · rintro ⟨h', he⟩
    simp only [Except.ok.injEq, Prod.mk.injEq, Subtype.mk.injEq] at he
    exact ⟨he.1.symm, he.2.symm⟩
  · rintro ⟨rfl, rfl⟩
    exact ⟨h, rfl⟩

@[simp] theorem not_reads_error {e : ε} {b : α} {us : List σ} :
    ¬ Reads (.error e : Reading ε σ α l) b us := fun ⟨_, he⟩ => nomatch he

theorem reads_map_iff {f : α → β} {r : Reading ε σ α l} {b : β} {rest : List σ} :
    Reads (r.map f) b rest ↔ ∃ a, Reads r a rest ∧ b = f a := by
  rcases r with e | ⟨a, us⟩
  · simp [Reading.map]
  · simp [Reading.map, reads_ok_iff, and_comm]

theorem reads_weaken_iff {hk : k.length ≤ l.length} {r : Reading ε σ α k} {a : α}
    {rest : List σ} : Reads (r.weaken hk) a rest ↔ Reads r a rest := by
  rcases r with e | ⟨a, us⟩
  · simp [Reading.weaken]
  · simp [Reading.weaken, reads_ok_iff]

theorem reads_past_iff {x : σ} {r : Reading ε σ α l} {a : α} {rest : List σ} :
    Reads (r.past : Reading ε σ α (x :: l)) a rest ↔ Reads r a rest := reads_weaken_iff

/-! ## Runs of characters -/

/-- A text does not begin with a character that satisfies `p`. -/
def StopsAt (p : Char → Bool) (cs : List Char) : Prop := ∀ c ∈ cs.head?, p c = false

@[simp] theorem stopsAt_nil (p : Char → Bool) : StopsAt p [] := fun _ h => nomatch h

@[simp] theorem stopsAt_cons {p : Char → Bool} {c : Char} {cs : List Char} :
    StopsAt p (c :: cs) ↔ p c = false := by
  simp [StopsAt]

variable {p : Char → Bool} {cs rest : List Char}

theorem stopsAt_append (h : cs ≠ []) : StopsAt p (cs ++ rest) ↔ StopsAt p cs := by
  obtain ⟨c, cs, rfl⟩ := List.exists_cons_of_ne_nil h
  rw [List.cons_append, stopsAt_cons, stopsAt_cons]

theorem takeWhile_append_stop (h : ∀ c ∈ cs, p c) (hrest : StopsAt p rest) :
    (cs ++ rest).takeWhile p = cs := by
  rw [List.takeWhile_append_of_pos h]
  cases rest with
  | nil => simp
  | cons c rest => rw [List.takeWhile_cons, stopsAt_cons.1 hrest]; simp

theorem dropWhile_append_stop (h : ∀ c ∈ cs, p c) (hrest : StopsAt p rest) :
    (cs ++ rest).dropWhile p = rest := by
  rw [List.dropWhile_append_of_pos h]
  cases rest with
  | nil => rfl
  | cons c rest => rw [List.dropWhile_cons, stopsAt_cons.1 hrest]; simp

theorem skip_of_stopsAt (h : StopsAt isLayout cs) : skip cs = cs := by
  have hnil : ∀ c ∈ ([] : List Char), isLayout c := fun _ hc => nomatch hc
  exact dropWhile_append_stop hnil h

end QueryRules.Text
