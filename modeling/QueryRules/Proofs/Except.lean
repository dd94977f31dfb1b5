import Mathlib.Data.List.Forall2

/-!
# Computations that may fail

- `Succeeds` says that a computation succeeds and what its result is like; it goes through binds and
  folds.
- `bind_eq_ok_iff`, `foldlM_invariant`, `foldlM_keeps`: what a computation that has succeeded went
  through, and what its steps have kept or left alone. `foldlM_map` carries it over to another one.
- `fault?` is the fault of a computation that fails; `mapM_eq_ok_iff` and `fault?_mapM` say when a
  map over a list succeeds and how it fails.
- `foldlM_append`, `foldlM_queue`: a fold that appends what every element gives, and one in which
  every element takes that off the front again.
- `Ends` says what the result of a computation is like if it succeeds and what its fault is like if
  it fails; it goes through binds, folds and maps over lists as well.
-/

namespace QueryRules

variable {α β ε : Type}

/-- The computation succeeds, with a result that has a property. -/
def Succeeds (x : Except ε α) (P : α → Prop) : Prop := ∃ a, x = .ok a ∧ P a

theorem Succeeds.imp {x : Except ε α} {P Q : α → Prop} (h : Succeeds x P) (hpq : ∀ a, P a → Q a) :
    Succeeds x Q := by
  obtain ⟨a, rfl, ha⟩ := h
  exact ⟨a, rfl, hpq a ha⟩

theorem Succeeds.bind {x : Except ε α} {f : α → Except ε β} {P : α → Prop} {Q : β → Prop}
    (h : Succeeds x P) (hf : ∀ a, P a → Succeeds (f a) Q) : Succeeds (x >>= f) Q := by
  obtain ⟨a, rfl, ha⟩ := h
  exact hf a ha

theorem Succeeds.map {x : Except ε α} {f : α → β} {Q : β → Prop}
    (h : Succeeds x fun a => Q (f a)) : Succeeds (x.map f) Q := by
  obtain ⟨a, rfl, ha⟩ := h
  exact ⟨f a, rfl, ha⟩

/-- A fold whose steps succeed and keep a property succeeds and keeps it. -/
theorem Succeeds.foldlM {P : β → Prop} {f : β → α → Except ε β} {as : List α} {b : β} (h : P b)
    (step : ∀ c, P c → ∀ a ∈ as, Succeeds (f c a) P) : Succeeds (as.foldlM f b) P := by
  induction as generalizing b with
  | nil => exact ⟨b, rfl, h⟩
  | cons a as ih =>
    rw [List.foldlM_cons]
    refine (step b h a (by simp)).bind fun c hc => ih hc ?_
    exact fun d hd x hx => step d hd x (List.mem_cons_of_mem a hx)

/-- A fold goes along with another one if each of its steps does. -/
theorem Succeeds.foldlM_foldl {γ : Type} {R : β → γ → Prop} {f : β → α → Except ε β}
    {g : γ → α → γ} {as : List α} {b : β} {c : γ} (h : R b c)
    (step : ∀ b c, R b c → ∀ a ∈ as, Succeeds (f b a) (R · (g c a))) :
    Succeeds (as.foldlM f b) (R · (as.foldl g c)) := by
  induction as generalizing b c with
  | nil => exact ⟨b, rfl, h⟩
  | cons a as ih =>
    rw [List.foldlM_cons, List.foldl_cons]
    refine (step b c h a List.mem_cons_self).bind fun b' hb' => ih hb' ?_
    exact fun d e hde x hx => step d e hde x (List.mem_cons_of_mem a hx)

/-- A bind succeeds if both of its parts do. -/
theorem bind_eq_ok_iff {x : Except ε α} {f : α → Except ε β} {b : β} :
    x >>= f = .ok b ↔ ∃ a, x = .ok a ∧ f a = .ok b := by
  cases x <;> simp [bind, Except.bind]

theorem mapError_eq_ok_iff {ε' : Type} {x : Except ε α} {g : ε → ε'} {a : α} :
    x.mapError g = .ok a ↔ x = .ok a := by
  cases x <;> simp [Except.mapError]

/-- A fold that succeeds keeps a property that each of its steps keeps. -/
theorem foldlM_invariant {P : β → Prop} {f : β → α → Except ε β} {as : List α} {b b' : β} (h : P b)
    (step : ∀ b, P b → ∀ a ∈ as, ∀ b', f b a = .ok b' → P b') (hf : as.foldlM f b = .ok b') :
    P b' := by
  induction as generalizing b with
  | nil => exact Except.ok.inj hf ▸ h
  | cons a as ih =>
    rw [List.foldlM_cons, bind_eq_ok_iff] at hf
    obtain ⟨c, hc, hf⟩ := hf
    refine ih (step b h a List.mem_cons_self c hc) ?_ hf
    exact fun d hd x hx => step d hd x (List.mem_cons_of_mem a hx)

/-- A fold that succeeds leaves alone what each of its steps leaves alone. -/
theorem foldlM_keeps {γ : Type} (g : β → γ) {f : β → α → Except ε β}
    (step : ∀ b a b', f b a = .ok b' → g b' = g b) {as : List α} {b b' : β}
    (h : as.foldlM f b = .ok b') : g b' = g b :=
  foldlM_invariant (P := fun c => g c = g b) rfl
    (fun c hc a _ c' hc' => (step c a c' hc').trans hc) h

/-- A fold that succeeds goes along with one over changed elements and values if its steps do. -/
theorem foldlM_map {γ δ : Type} {f : β → α → Except ε β} {f' : γ → δ → Except ε γ} {g : β → γ}
    {h : α → δ} (step : ∀ b a b', f b a = .ok b' → f' (g b) (h a) = .ok (g b')) {as : List α}
    {b b' : β} (hf : as.foldlM f b = .ok b') : (as.map h).foldlM f' (g b) = .ok (g b') := by
  induction as generalizing b with
  | nil => exact congrArg (Except.ok ∘ g) (Except.ok.inj hf)
  | cons a as ih =>
    rw [List.foldlM_cons, bind_eq_ok_iff] at hf
    obtain ⟨c, hc, hf⟩ := hf
    rw [List.map_cons, List.foldlM_cons, bind_eq_ok_iff]
    exact ⟨g c, step b a c hc, ih hf⟩

theorem exists_of_map_eq_ok {x : Except ε α} {f : α → β} {b : β} (h : x.map f = .ok b) :
    ∃ a, x = .ok a ∧ f a = b := by
  cases x with
  | error fault => exact nomatch h
  | ok a => exact ⟨a, rfl, Except.ok.inj h⟩

/-- The fault of a computation that fails. -/
def fault? : Except ε α → Option ε
  | .error fault => some fault
  | .ok _ => none

theorem fault?_map (x : Except ε α) (f : α → β) : fault? (x.map f) = fault? x := by
  cases x <;> rfl

theorem fault?_eq_none_iff {x : Except ε α} : fault? x = none ↔ ∃ a, x = .ok a := by
  cases x <;> simp [fault?]

theorem fault?_eq_some_iff {x : Except ε α} {fault : ε} :
    fault? x = some fault ↔ x = .error fault := by
  cases x <;> simp [fault?]

/-- A map that succeeds has the result of each element in its place. -/
theorem mapM_eq_ok_iff {f : α → Except ε β} {as : List α} {bs : List β} :
    as.mapM f = .ok bs ↔ List.Forall₂ (fun a b => f a = .ok b) as bs := by
  induction as generalizing bs with
  | nil => simp [pure, Except.pure, eq_comm]
  | cons a as ih =>
    rw [List.mapM_cons, List.forall₂_cons_left_iff]
    cases ha : f a with
    | error fault => simp [bind, Except.bind]
    | ok b =>
      cases has : as.mapM f with
      | error fault => simp [← ih, has, bind, Except.bind]
      | ok bs => simp [← ih, has, bind, Except.bind, pure, Except.pure, eq_comm]

/-- Lists that are related element by element have related elements in every place. -/
theorem exists_getElem?_of_forall₂ {R : α → β → Prop} {as : List α} {bs : List β}
    (h : List.Forall₂ R as bs) {n : Nat} {a : α} (ha : as[n]? = some a) :
    ∃ b, bs[n]? = some b ∧ R a b := by
  obtain ⟨hn, rfl⟩ := List.getElem?_eq_some_iff.1 ha
  have hn' : n < bs.length := h.length_eq ▸ hn
  exact ⟨bs[n], List.getElem?_eq_getElem hn', h.get hn hn'⟩

theorem exists_mem_of_forall₂ {R : α → β → Prop} {as : List α} {bs : List β}
    (h : List.Forall₂ R as bs) {b : β} (hb : b ∈ bs) : ∃ a ∈ as, R a b := by
  obtain ⟨n, hb⟩ := List.mem_iff_getElem?.1 hb
  obtain ⟨a, ha, hab⟩ := exists_getElem?_of_forall₂ h.flip hb
  exact ⟨a, List.mem_of_getElem? ha, hab⟩

/-- Whatever a map that succeeds gives is the result of an element. -/
theorem exists_of_mem_mapM {f : α → Except ε β} {as : List α} {bs : List β}
    (h : as.mapM f = .ok bs) {b : β} (hb : b ∈ bs) : ∃ a ∈ as, f a = .ok b :=
  exists_mem_of_forall₂ (mapM_eq_ok_iff.1 h) hb

/-- A map fails as the first element does that fails. -/
theorem fault?_mapM (f : α → Except ε β) (as : List α) :
    fault? (as.mapM f) = as.findSome? fun a => fault? (f a) := by
  induction as with
  | nil => rfl
  | cons a as ih =>
    rw [List.mapM_cons, List.findSome?_cons, ← ih]
    cases ha : f a with
    | error fault => rfl
    | ok b => cases has : as.mapM f <;> rfl

/-- A map succeeds if every element does. -/
theorem exists_mapM_eq_ok_iff {f : α → Except ε β} {as : List α} :
    (∃ bs, as.mapM f = .ok bs) ↔ ∀ a ∈ as, ∃ b, f a = .ok b := by
  simp only [← fault?_eq_none_iff, fault?_mapM, List.findSome?_eq_none_iff]

/-! ## Queues -/

section

variable {γ δ : Type} {h : β → List γ}

/-- A fold that appends what every element gives has the results of a map in their order. -/
theorem foldlM_append {f : List γ → α → Except ε (List γ)} {g : α → Except ε β}
    (step : ∀ cs a, f cs a = (g a).map fun b => cs ++ h b) (cs : List γ) (as : List α) :
    as.foldlM f cs = (as.mapM g).map fun bs => cs ++ bs.flatMap h := by
  induction as generalizing cs with
  | nil => exact congrArg Except.ok (List.append_nil cs).symm
  | cons a as ih =>
    rw [List.foldlM_cons, List.mapM_cons, step]
    cases g a with
    | error fault => rfl
    | ok b =>
      change as.foldlM f (cs ++ h b) = _
      rw [ih]
      cases as.mapM g with
      | error fault => rfl
      | ok bs => exact congrArg Except.ok (List.append_assoc cs (h b) (bs.flatMap h))

/-- A fold in which every element takes its own part off the front of a queue goes along with one
over elements that carry their parts, and leaves what stands behind all the parts. -/
theorem foldlM_queue {f : δ × List γ → α → Except ε (δ × List γ)} {g : δ → β → Except ε δ}
    {as : List α} {bs : List β}
    (step : List.Forall₂ (fun a b => ∀ s rest, f (s, h b ++ rest) a = (g s b).map (·, rest)) as bs)
    (s : δ) (rest : List γ) :
    as.foldlM f (s, bs.flatMap h ++ rest) = (bs.foldlM g s).map (·, rest) := by
  induction step generalizing s with
  | nil => rfl
  | @cons a b as bs hab _ ih =>
    rw [List.foldlM_cons, List.foldlM_cons, List.flatMap_cons, List.append_assoc, hab]
    cases g s b with
    | error fault => rfl
    | ok s' => exact ih s'

end

/-! ## Both ways to end -/

/-- The computation succeeds with a result that has a property, or fails with a fault that has
one. -/
def Ends (x : Except ε α) (P : α → Prop) (E : ε → Prop) : Prop :=
  match x with
  | .ok a => P a
  | .error e => E e

variable {P : α → Prop} {E : ε → Prop}

theorem Ends.of_ok {x : Except ε α} {a : α} (h : Ends x P E) (hx : x = .ok a) : P a := by
  subst hx
  exact h

theorem Ends.of_error {x : Except ε α} {e : ε} (h : Ends x P E) (hx : x = .error e) : E e := by
  subst hx
  exact h

theorem Ends.imp {x : Except ε α} {Q : α → Prop} {F : ε → Prop} (h : Ends x P E)
    (hp : ∀ a, P a → Q a) (he : ∀ e, E e → F e) : Ends x Q F := by
  cases x with
  | error e => exact he e h
  | ok a => exact hp a h

theorem Ends.bind {x : Except ε α} {f : α → Except ε β} {Q : β → Prop} (h : Ends x P E)
    (hf : ∀ a, P a → Ends (f a) Q E) : Ends (x >>= f) Q E := by
  cases x with
  | error e => exact h
  | ok a => exact hf a h

/-- Faults that are given another form have a property if they all have it in that form. -/
theorem Ends.mapError {ε' : Type} {x : Except ε α} {g : ε → ε'} {E : ε' → Prop}
    (h : ∀ a, x = .ok a → P a) (hg : ∀ e, E (g e)) : Ends (x.mapError g) P E := by
  cases x with
  | error e => exact hg e
  | ok a => exact h a rfl

theorem Ends.mapError_imp {ε' : Type} {x : Except ε α} {g : ε → ε'} {F : ε' → Prop}
    (h : Ends x P E) (hg : ∀ e, E e → F (g e)) : Ends (x.mapError g) P F := by
  cases x with
  | error e => exact hg e h
  | ok a => exact h

theorem Ends.map {x : Except ε α} {f : α → β} {Q : β → Prop} (h : Ends x P E)
    (hf : ∀ a, P a → Q (f a)) : Ends (x.map f) Q E := by
  cases x with
  | error e => exact h
  | ok a => exact hf a h

/-- A fold whose steps keep a property or fail with one ends so. -/
theorem Ends.foldlM {P : β → Prop} {f : β → α → Except ε β} {as : List α} {b : β} (h : P b)
    (step : ∀ c, P c → ∀ a ∈ as, Ends (f c a) P E) : Ends (as.foldlM f b) P E := by
  induction as generalizing b with
  | nil => exact h
  | cons a as ih =>
    rw [List.foldlM_cons]
    refine (step b h a List.mem_cons_self).bind fun c hc => ih hc ?_
    exact fun d hd x hx => step d hd x (List.mem_cons_of_mem a hx)

/-- A fold goes along with another one over the same elements if each of its steps does, or fails
with a fault that the other one accounts for, also after further steps. -/
theorem Ends.foldlM_foldl {γ : Type} {R : β → γ → Prop} {F : γ → ε → Prop}
    {f : β → α → Except ε β} {g : γ → α → γ} {as : List α} {b : β} {c : γ} (h : R b c)
    (step : ∀ b c a, R b c → Ends (f b a) (fun b' => R b' (g c a)) (F (g c a)))
    (keep : ∀ c a e, F c e → F (g c a) e) :
    Ends (as.foldlM f b) (fun b' => R b' (as.foldl g c)) (F (as.foldl g c)) := by
  induction as generalizing b c with
  | nil => exact h
  | cons a as ih =>
    have hstep := step b c a h
    rw [List.foldlM_cons, List.foldl_cons]
    cases hb : f b a with
    | ok b' => exact ih (hstep.of_ok hb)
    | error e =>
      exact List.foldlRecOn as g (hstep.of_error hb) fun c hc a _ => keep c a e hc

theorem Ends.mapM {f : α → Except ε β} {as : List α} {Q : β → Prop}
    (h : ∀ a ∈ as, Ends (f a) Q E) : Ends (as.mapM f) (fun bs => ∀ b ∈ bs, Q b) E := by
  induction as with
  | nil => exact fun b hb => nomatch hb
  | cons a as ih =>
    obtain ⟨ha, has⟩ := List.forall_mem_cons.1 h
    rw [List.mapM_cons]
    refine ha.bind fun b hb => (ih has).bind fun bs hbs => ?_
    exact List.forall_mem_cons.2 ⟨hb, hbs⟩

end QueryRules
