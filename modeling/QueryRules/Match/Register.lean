import QueryRules.Rule.Literal

/-!
# Registers of literals

- `Register` numbers literals in the order in which they first come, each once.
- `Register.id?` and `Register.literal?` go both ways (`Register.id?_eq_some_iff`).
- `Register.insert` gives a literal a number (`Register.id?_insert_self`) and keeps the numbers that
  other literals have (`Register.literal?_insert`).
-/

namespace QueryRules

/-- The literals of the conditions of a rule set, each once; a literal's number is its place. -/
structure Register where
  literals : List Literal := []
  nodup : literals.Nodup := by simp
  deriving DecidableEq, Repr

namespace Register

/-- The number of literals. -/
def size (r : Register) : Nat := r.literals.length

/-- The number of a literal. -/
def id? (r : Register) (l : Literal) : Option Nat := r.literals.idxOf? l

/-- The literal with a number. -/
def literal? (r : Register) (id : Nat) : Option Literal := r.literals[id]?

theorem id?_eq_none_iff {r : Register} {l : Literal} : r.id? l = none ↔ l ∉ r.literals := by
  rw [id?, List.idxOf?_eq_none_iff]

theorem nodup_append {r : Register} {l : Literal} (h : r.id? l = none) :
    (r.literals ++ [l]).Nodup := by
  rw [id?_eq_none_iff] at h
  refine List.nodup_append.2 ⟨r.nodup, by simp, fun a ha b hb => ?_⟩
  rintro rfl
  exact h (List.mem_singleton.1 hb ▸ ha)

/-- The register with one more literal, and the number of the literal. -/
def insert (r : Register) (l : Literal) : Register × Nat :=
  match h : r.id? l with
  | some id => (r, id)
  | none => (⟨r.literals ++ [l], nodup_append h⟩, r.size)

/-- The number of a literal and the literal with a number belong together. -/
theorem id?_eq_some_iff {r : Register} {l : Literal} {id : Nat} :
    r.id? l = some id ↔ r.literal? id = some l := by
  rw [id?, literal?, List.idxOf?_eq_some_iff, List.getElem?_eq_some_iff]
  constructor
  · rintro ⟨h, he, -⟩
    exact ⟨h, he⟩
  · rintro ⟨h, rfl⟩
    refine ⟨h, rfl, fun j hj he => ?_⟩
    exact Nat.ne_of_lt hj ((List.getElem_inj r.nodup).1 he)

theorem insert_of_some {r : Register} {l : Literal} {id : Nat} (h : r.id? l = some id) :
    r.insert l = (r, id) := by
  rw [insert]
  split
  · rename_i h'
    rw [Option.some.inj (h'.symm.trans h)]
  · rename_i h'
    exact nomatch h'.symm.trans h

/-- A literal that was not there gets the next number. -/
theorem insert_of_none {r : Register} {l : Literal} (h : r.id? l = none) :
    (r.insert l).1.literals = r.literals ++ [l] ∧ (r.insert l).2 = r.size := by
  rw [insert]
  split
  · rename_i h'
    exact nomatch h'.symm.trans h
  · exact ⟨rfl, rfl⟩

theorem id?_insert_self (r : Register) (l : Literal) :
    (r.insert l).1.id? l = some (r.insert l).2 := by
  rw [insert]
  split
  · assumption
  · simp [id?_eq_some_iff, literal?, size]

theorem literal?_insert {r : Register} {l k : Literal} {id : Nat} (h : r.literal? id = some k) :
    (r.insert l).1.literal? id = some k := by
  rw [insert]
  split
  · exact h
  · have hlt := (List.getElem?_eq_some_iff.1 h).1
    simpa [literal?, List.getElem?_append_left hlt] using h

end Register

end QueryRules
