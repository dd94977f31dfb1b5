/-!
# Sets of field names

- `FieldSet` keeps its names in ascending order without repeats, so two sets are equal as soon as
  they have the same members (`FieldSet.ext`).
- `FieldSet.ofList` collects the names of a list (`FieldSet.mem_ofList`).
- `FieldSet.meets` asks for a common name (`FieldSet.meets_iff`).
-/

namespace QueryRules

/-- A set of field names, in ascending order. -/
structure FieldSet where
  names : List String
  ascending : names.Pairwise (· < ·)
  deriving DecidableEq, Repr

namespace FieldSet

/-- An ascending list with one more name. -/
def insertName (n : String) : List String → List String
  | [] => [n]
  | m :: ms => if n < m then n :: m :: ms else if n = m then m :: ms else m :: insertName n ms

theorem mem_insertName {n x : String} {ms : List String} :
    x ∈ insertName n ms ↔ x = n ∨ x ∈ ms := by
  induction ms with
  | nil => simp [insertName]
  | cons m ms ih =>
    simp only [insertName]
    split
    · simp
    · split
      · subst_vars; simp
      · simp only [List.mem_cons, ih]
        constructor <;> rintro (h | h | h) <;> simp [h]

theorem pairwise_insertName {n : String} {ms : List String} (h : ms.Pairwise (· < ·)) :
    (insertName n ms).Pairwise (· < ·) := by
  induction ms with
  | nil => simp [insertName]
  | cons m ms ih =>
    obtain ⟨hm, hs⟩ := List.pairwise_cons.1 h
    simp only [insertName]
    split
    · rename_i hlt
      refine List.pairwise_cons.2 ⟨fun x hx => ?_, h⟩
      rcases List.mem_cons.1 hx with rfl | hx
      · exact hlt
      · exact String.lt_trans hlt (hm x hx)
    · split
      · exact h
      · rename_i hlt hne
        refine List.pairwise_cons.2 ⟨fun x hx => ?_, ih hs⟩
        rcases mem_insertName.1 hx with rfl | hx
        · exact (Std.lt_trichotomy m x).resolve_right fun h =>
            h.elim (fun h => hne h.symm) hlt
        · exact hm x hx

/-- The set without names. -/
def empty : FieldSet := ⟨[], .nil⟩

instance : EmptyCollection FieldSet := ⟨empty⟩
instance : Inhabited FieldSet := ⟨empty⟩

/-- A set with one more name. -/
def insert (n : String) (s : FieldSet) : FieldSet :=
  ⟨insertName n s.names, pairwise_insertName s.ascending⟩

/-- The set of the names in a list. -/
def ofList (ns : List String) : FieldSet := ns.foldr insert empty

/-- The names in ascending order. -/
def toList (s : FieldSet) : List String := s.names

/-- The set has no names. -/
def isEmpty (s : FieldSet) : Bool := s.names.isEmpty

instance : Membership String FieldSet := ⟨fun s n => n ∈ s.names⟩

instance (n : String) (s : FieldSet) : Decidable (n ∈ s) :=
  inferInstanceAs (Decidable (n ∈ s.names))

/-- Two sets have a name in common. -/
def meets (s t : FieldSet) : Bool := s.names.any fun n => decide (n ∈ t)

/-- The names with `sep` between them. -/
def join (sep : String) (s : FieldSet) : String := sep.intercalate s.names

theorem mem_def {n : String} {s : FieldSet} : n ∈ s ↔ n ∈ s.names := Iff.rfl

@[simp] theorem mem_toList {n : String} {s : FieldSet} : n ∈ s.toList ↔ n ∈ s := Iff.rfl

@[simp] theorem mem_empty {n : String} : ¬ n ∈ empty := List.not_mem_nil

@[simp] theorem mem_insert {n x : String} {s : FieldSet} : x ∈ s.insert n ↔ x = n ∨ x ∈ s :=
  mem_insertName

@[simp] theorem mem_ofList {x : String} {ns : List String} : x ∈ ofList ns ↔ x ∈ ns := by
  induction ns with
  | nil => simp [ofList]
  | cons n ns ih => simpa [ofList] using or_congr_right ih

theorem isEmpty_iff {s : FieldSet} : s.isEmpty ↔ ∀ n, n ∉ s := by
  simp [isEmpty, mem_def, List.eq_nil_iff_forall_not_mem]

theorem meets_iff {s t : FieldSet} : s.meets t ↔ ∃ n, n ∈ s ∧ n ∈ t := by
  simp [meets, mem_def]

/-- Ascending lists with the same members are equal. -/
theorem eq_of_ascending {l k : List String} (hl : l.Pairwise (· < ·)) (hk : k.Pairwise (· < ·))
    (h : ∀ x, x ∈ l ↔ x ∈ k) : l = k := by
  induction l generalizing k with
  | nil =>
    cases k with
    | nil => rfl
    | cons b k => simpa using (h b).2 (by simp)
  | cons a l ih =>
    cases k with
    | nil => simpa using (h a).1 (by simp)
    | cons b k =>
      obtain ⟨ha, hl⟩ := List.pairwise_cons.1 hl
      obtain ⟨hb, hk'⟩ := List.pairwise_cons.1 hk
      have hab : a = b := by
        rcases List.mem_cons.1 ((h a).1 (by simp)) with e | e
        · exact e
        · rcases List.mem_cons.1 ((h b).2 (by simp)) with e' | e'
          · exact e'.symm
          · exact absurd (ha b e') (String.lt_asymm (hb a e))
      subst hab
      congr 1
      refine ih hl hk' fun x => ?_
      constructor
      · intro hx
        rcases List.mem_cons.1 ((h x).1 (by simp [hx])) with rfl | e
        · exact absurd (ha x hx) (String.lt_irrefl x)
        · exact e
      · intro hx
        rcases List.mem_cons.1 ((h x).2 (by simp [hx])) with rfl | e
        · exact absurd (hb x hx) (String.lt_irrefl x)
        · exact e

/-- Sets with the same members are equal. -/
@[ext] theorem ext {s t : FieldSet} (h : ∀ n, n ∈ s ↔ n ∈ t) : s = t := by
  obtain ⟨l, hl⟩ := s
  obtain ⟨k, hk⟩ := t
  obtain rfl : l = k := eq_of_ascending hl hk h
  rfl

@[simp] theorem ofList_toList (s : FieldSet) : ofList s.toList = s := by
  ext n; simp

end FieldSet

end QueryRules
