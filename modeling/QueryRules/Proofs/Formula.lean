import QueryRules.Proofs.Except
import QueryRules.Rule.Formula

/-!
# The meaning of formulas

- `Formula.induct`: induction over a formula with the hypothesis for every operand.
- `Formula.holds_all`, `Formula.holds_any`: the meaning of an operator by the list of its operands.
- A formula without a not is monotone in its valuation (`Formula.holds_mono`), and nothing makes it
  hold that no literal does (`Formula.holds_false`).
- Without a not no literal stands below one (`Formula.positiveLiterals_eq`), and where a literal
  stands does not depend on what it is (`Formula.positiveLiterals_map`).
- `Formula.traverse_map`, `Formula.traverse_eq_self`: literals replaced after they have been
  changed, and literals replaced with themselves. `Formula.ends_traverse`: what is so for every
  replaced literal is so for those of the result, and the fault is that of a literal.
-/

namespace QueryRules.Formula

variable {α : Type}

/-- Induction over formulas; an operator has the hypothesis for each of its operands. -/
@[elab_as_elim]
theorem induct {motive : Formula α → Prop} (literal : ∀ a, motive (.literal a))
    (all : ∀ fs, (∀ f ∈ fs, motive f) → motive (.all fs))
    (any : ∀ fs, (∀ f ∈ fs, motive f) → motive (.any fs))
    (not : ∀ f, motive f → motive (.not f)) (f : Formula α) : motive f :=
  @Formula.rec α motive (fun fs => ∀ f ∈ fs, motive f) literal all any not (by simp)
    (fun _ _ hf hfs => List.forall_mem_cons.2 ⟨hf, hfs⟩) f

theorem everyHolds_eq (v : α → Bool) (fs : List (Formula α)) :
    everyHolds v fs = fs.all (holds v) := by
  induction fs with
  | nil => rfl
  | cons f fs ih => rw [everyHolds, ih, List.all_cons]

theorem someHolds_eq (v : α → Bool) (fs : List (Formula α)) :
    someHolds v fs = fs.any (holds v) := by
  induction fs with
  | nil => rfl
  | cons f fs ih => rw [someHolds, ih, List.any_cons]

theorem allPositive_eq (fs : List (Formula α)) : allPositive fs = fs.all isPositive := by
  induction fs with
  | nil => rfl
  | cons f fs ih => rw [allPositive, ih, List.all_cons]

/-- A conjunction holds if it has operands and all of them hold. -/
@[simp] theorem holds_all (v : α → Bool) (fs : List (Formula α)) :
    holds v (.all fs) = (!fs.isEmpty && fs.all (holds v)) := by
  cases fs with
  | nil => rfl
  | cons f fs => simp [holds, everyHolds_eq]

/-- A disjunction holds if one of its operands does. -/
@[simp] theorem holds_any (v : α → Bool) (fs : List (Formula α)) :
    holds v (.any fs) = fs.any (holds v) := by
  rw [holds, someHolds_eq]

@[simp] theorem holds_not (v : α → Bool) (f : Formula α) : holds v (.not f) = !holds v f := by
  rw [holds]

@[simp] theorem holds_literal (v : α → Bool) (a : α) : holds v (.literal a) = v a := by
  rw [holds]

@[simp] theorem isPositive_all (fs : List (Formula α)) :
    isPositive (.all fs) = fs.all isPositive := by
  rw [isPositive, allPositive_eq]

@[simp] theorem isPositive_any (fs : List (Formula α)) :
    isPositive (.any fs) = fs.all isPositive := by
  rw [isPositive, allPositive_eq]

/-- A formula without a not goes on to hold when more literals do. -/
theorem holds_mono {v w : α → Bool} (h : ∀ a, v a → w a) {f : Formula α} (hp : f.isPositive)
    (hf : f.holds v) : f.holds w := by
  induction f using induct with
  | literal a => simpa using h a (by simpa using hf)
  | all fs ih =>
    simp only [isPositive_all, List.all_eq_true] at hp
    simp only [holds_all, Bool.and_eq_true, List.all_eq_true] at hf ⊢
    exact ⟨hf.1, fun f hm => ih f hm (hp f hm) (hf.2 f hm)⟩
  | any fs ih =>
    simp only [isPositive_any, List.all_eq_true] at hp
    simp only [holds_any, List.any_eq_true] at hf ⊢
    obtain ⟨f, hm, hf⟩ := hf
    exact ⟨f, hm, ih f hm (hp f hm) hf⟩
  | not f ih => simp [isPositive] at hp

/-- A formula without a not does not hold as long as no literal does. -/
theorem holds_false {f : Formula α} (hp : f.isPositive) : f.holds (fun _ => false) = false := by
  induction f using induct with
  | literal a => rfl
  | all fs ih =>
    simp only [isPositive_all, List.all_eq_true] at hp
    cases fs with
    | nil => rfl
    | cons f fs => simp [ih f (by simp) (hp f (by simp))]
  | any fs ih =>
    simp only [isPositive_any, List.all_eq_true] at hp
    simp only [holds_any, List.any_eq_false]
    intro f hm
    simp [ih f hm (hp f hm)]
  | not f ih => simp [isPositive] at hp

theorem mem_literalsOf {a : α} {fs : List (Formula α)} :
    a ∈ literalsOf fs ↔ ∃ f ∈ fs, a ∈ f.literals := by
  induction fs with
  | nil => simp [literalsOf]
  | cons f fs ih => simp [literalsOf, ih]

/-- Whether a formula holds depends on its own literals only. -/
theorem holds_congr {v w : α → Bool} {f : Formula α} (h : ∀ a ∈ f.literals, v a = w a) :
    f.holds v = f.holds w := by
  induction f using induct with
  | literal a => exact h a (by simp [literals])
  | all fs ih =>
    have hall : ∀ f ∈ fs, f.holds v = f.holds w := fun f hf =>
      ih f hf fun a ha => h a (by rw [literals]; exact mem_literalsOf.2 ⟨f, hf, ha⟩)
    rw [holds_all, holds_all, Bool.eq_iff_iff]
    simp only [Bool.and_eq_true, List.all_eq_true]
    exact and_congr_right fun _ => forall₂_congr fun f hf => by rw [hall f hf]
  | any fs ih =>
    have hany : ∀ f ∈ fs, f.holds v = f.holds w := fun f hf =>
      ih f hf fun a ha => h a (by rw [literals]; exact mem_literalsOf.2 ⟨f, hf, ha⟩)
    rw [holds_any, holds_any, Bool.eq_iff_iff]
    simp only [List.any_eq_true]
    exact exists_congr fun f => and_congr_right fun hf => by rw [hany f hf]
  | not f ih =>
    rw [holds_not, holds_not, ih fun a ha => h a (by rwa [literals])]

theorem literalsOf_eq (fs : List (Formula α)) : literalsOf fs = fs.flatMap literals := by
  induction fs with
  | nil => rfl
  | cons f fs ih => rw [literalsOf, ih, List.flatMap_cons]

theorem positiveLiteralsOf_eq (fs : List (Formula α)) :
    positiveLiteralsOf fs = fs.flatMap positiveLiterals := by
  induction fs with
  | nil => rfl
  | cons f fs ih => rw [positiveLiteralsOf, ih, List.flatMap_cons]

/-- Without a not no literal stands below one. -/
theorem positiveLiterals_eq {f : Formula α} (hp : f.isPositive) :
    f.positiveLiterals = f.literals := by
  induction f using induct with
  | literal a => rw [positiveLiterals, literals]
  | all fs ih =>
    simp only [isPositive_all, List.all_eq_true] at hp
    rw [positiveLiterals, literals, positiveLiteralsOf_eq, literalsOf_eq]
    exact List.flatMap_congr fun f hf => ih f hf (hp f hf)
  | any fs ih =>
    simp only [isPositive_any, List.all_eq_true] at hp
    rw [positiveLiterals, literals, positiveLiteralsOf_eq, literalsOf_eq]
    exact List.flatMap_congr fun f hf => ih f hf (hp f hf)
  | not f ih => simp [isPositive] at hp

theorem mapList_eq {β : Type} (g : α → β) (fs : List (Formula α)) :
    mapList g fs = fs.map (map g) := by
  induction fs with
  | nil => rfl
  | cons f fs ih => rw [mapList, ih, List.map_cons]

theorem texts_eq (leaf : α → String) (fs : List (Formula α)) :
    texts leaf fs = fs.map (text leaf) := by
  induction fs with
  | nil => rfl
  | cons f fs ih => rw [texts, ih, List.map_cons]

theorem literals_map {β : Type} (g : α → β) (f : Formula α) :
    (f.map g).literals = f.literals.map g := by
  have hoperands (fs : List (Formula α))
      (ih : ∀ f ∈ fs, (f.map g).literals = f.literals.map g) :
      literalsOf (mapList g fs) = (literalsOf fs).map g := by
    rw [literalsOf_eq, literalsOf_eq, mapList_eq, List.flatMap_map, List.map_flatMap]
    exact List.flatMap_congr ih
  induction f using induct with
  | literal a => rfl
  | all fs ih => exact hoperands fs ih
  | any fs ih => exact hoperands fs ih
  | not f ih => exact ih

/-- The literals outside every not are changed with the others. -/
theorem positiveLiterals_map {β : Type} (g : α → β) (f : Formula α) :
    (f.map g).positiveLiterals = f.positiveLiterals.map g := by
  have hoperands (fs : List (Formula α))
      (ih : ∀ f ∈ fs, (f.map g).positiveLiterals = f.positiveLiterals.map g) :
      positiveLiteralsOf (mapList g fs) = (positiveLiteralsOf fs).map g := by
    rw [positiveLiteralsOf_eq, positiveLiteralsOf_eq, mapList_eq, List.flatMap_map,
      List.map_flatMap]
    exact List.flatMap_congr ih
  induction f using induct with
  | literal a => rfl
  | all fs ih => exact hoperands fs ih
  | any fs ih => exact hoperands fs ih
  | not f ih => rfl

theorem hasPositive_map {β : Type} (g : α → β) (f : Formula α) :
    (f.map g).hasPositive = f.hasPositive := by
  rw [hasPositive, hasPositive, positiveLiterals_map, List.isEmpty_map]

/-- Literals can be changed and then replaced in one step. -/
theorem traverse_map {β γ ε : Type} (g : α → β) (h : β → Except ε γ) (f : Formula α) :
    (f.map g).traverse h = f.traverse fun a => h (g a) := by
  have hlist {fs : List (Formula α)}
      (hfs : ∀ f ∈ fs, (f.map g).traverse h = f.traverse fun a => h (g a)) :
      traverseList h (mapList g fs) = traverseList (fun a => h (g a)) fs := by
    induction fs with
    | nil => rfl
    | cons f fs ih =>
      obtain ⟨hf, hfs⟩ := List.forall_mem_cons.1 hfs
      rw [mapList, traverseList, traverseList, hf, ih hfs]
  induction f using induct with
  | literal a => rfl
  | all fs ih => rw [map, traverse, traverse, hlist ih]
  | any fs ih => rw [map, traverse, traverse, hlist ih]
  | not f ih => rw [map, traverse, traverse, ih]

/-- If every literal is replaced with itself, the formula is. -/
theorem traverse_eq_self {ε : Type} {h : α → Except ε α} {f : Formula α}
    (hf : ∀ a ∈ f.literals, h a = .ok a) : f.traverse h = .ok f := by
  have hlist {fs : List (Formula α)} (hfs : ∀ f ∈ fs, f.traverse h = .ok f) :
      traverseList h fs = .ok fs := by
    induction fs with
    | nil => rfl
    | cons f fs ih =>
      obtain ⟨hf, hfs⟩ := List.forall_mem_cons.1 hfs
      rw [traverseList, hf, ih hfs]
      rfl
  induction f using induct with
  | literal a => rw [traverse, hf a (by simp [literals])]; rfl
  | all fs ih =>
    rw [traverse, hlist fun f hm => ih f hm fun a ha =>
      hf a (by rw [literals]; exact mem_literalsOf.2 ⟨f, hm, ha⟩)]
    rfl
  | any fs ih =>
    rw [traverse, hlist fun f hm => ih f hm fun a ha =>
      hf a (by rw [literals]; exact mem_literalsOf.2 ⟨f, hm, ha⟩)]
    rfl
  | not f ih => rw [traverse, ih fun a ha => hf a (by rwa [literals])]; rfl

/-- The literals of the result are replaced literals, and the fault is that of a literal. -/
theorem ends_traverse {β ε : Type} {g : α → Except ε β} {P : β → Prop} {E : ε → Prop}
    (hg : ∀ a, Ends (g a) P E) (f : Formula α) :
    Ends (f.traverse g) (fun f' => ∀ b ∈ f'.literals, P b) E := by
  have hlist {fs : List (Formula α)}
      (hfs : ∀ f ∈ fs, Ends (f.traverse g) (fun f' => ∀ b ∈ f'.literals, P b) E) :
      Ends (traverseList g fs) (fun fs' => ∀ b ∈ literalsOf fs', P b) E := by
    induction fs with
    | nil => exact fun b hb => nomatch hb
    | cons f fs ih =>
      obtain ⟨hf, hfs⟩ := List.forall_mem_cons.1 hfs
      rw [traverseList]
      refine hf.bind fun f' hf' => (ih hfs).bind fun fs' hfs' => ?_
      exact List.forall_mem_append.2 ⟨hf', hfs'⟩
  induction f using induct with
  | literal a => exact (hg a).map fun b hb => by simpa [literals] using hb
  | all fs ih => exact (hlist ih).map fun fs' hfs' => hfs'
  | any fs ih => exact (hlist ih).map fun fs' hfs' => hfs'
  | not f ih => exact ih.map fun f' hf' => hf'

/-- A formula without a not that holds has a literal that does. -/
theorem exists_literal_of_holds {v : α → Bool} {f : Formula α} (hp : f.isPositive)
    (hf : f.holds v) : ∃ a ∈ f.literals, v a := by
  cases hany : f.literals.any v with
  | true => exact List.any_eq_true.1 hany
  | false =>
    have hv : ∀ a ∈ f.literals, v a = false := by simpa using hany
    rw [holds_congr hv, holds_false hp] at hf
    exact nomatch hf

end QueryRules.Formula
