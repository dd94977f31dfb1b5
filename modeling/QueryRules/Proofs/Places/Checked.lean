import QueryRules.Proofs.Except

/-!
# Computations that look at places

- A `Checked` computation ends early with a fault of its own, or because it looks at a place where
  nothing is: `outside`. `Checked.lift` is a computation that looks at no places.
- `Checked.get`, `Checked.modify`, `Checked.take` and `Checked.sub` look at places of lists and
  subtract numbers.
- `Checked.lift_bind`, `Checked.foldlM_eq_lift`, `Checked.mapM_eq_lift`: a checked computation whose
  steps never look outside does what it does without places.
-/

namespace QueryRules

/-- Why a checked computation ends early. -/
inductive Failure (ε : Type) where
  | fault (e : ε)
  /-- There is nothing at a place that it looks at. -/
  | outside
  deriving DecidableEq, Repr

variable {ε ε' α β σ : Type}

/-- The fault in another form. -/
def Failure.map (g : ε → ε') : Failure ε → Failure ε'
  | .fault e => .fault (g e)
  | .outside => .outside

/-- A computation that may look at places where nothing is. -/
abbrev Checked (ε α : Type) : Type := Except (Failure ε) α

namespace Checked

/-- A computation that looks at no places. -/
def lift (x : Except ε α) : Checked ε α := x.mapError .fault

/-- The computation with its faults in another form. -/
def mapFault (g : ε → ε') (x : Checked ε α) : Checked ε' α := x.mapError (Failure.map g)

/-- The element at a place. -/
def get (as : List α) (i : Nat) : Checked ε α :=
  match as[i]? with
  | some a => .ok a
  | none => .error .outside

/-- The list with the element at a place changed. -/
def modify (as : List α) (i : Nat) (f : α → α) : Checked ε (List α) :=
  if i < as.length then .ok (as.modify i f) else .error .outside

/-- The elements before a place. -/
def take (as : List α) (n : Nat) : Checked ε (List α) :=
  if n ≤ as.length then .ok (as.take n) else .error .outside

/-- The difference of two numbers, which is none if the second is the greater one. -/
def sub (m n : Nat) : Checked ε Nat := if n ≤ m then .ok (m - n) else .error .outside

/-! ## Places inside -/

theorem get_eq_ok {as : List α} {i : Nat} {a : α} (h : as[i]? = some a) :
    get as i = (.ok a : Checked ε α) := by
  rw [get, h]

theorem modify_eq_ok {as : List α} {i : Nat} (h : i < as.length) (f : α → α) :
    modify as i f = (.ok (as.modify i f) : Checked ε (List α)) := if_pos h

theorem take_eq_ok {as : List α} {n : Nat} (h : n ≤ as.length) :
    take as n = (.ok (as.take n) : Checked ε (List α)) := if_pos h

theorem sub_eq_ok {m n : Nat} (h : n ≤ m) : sub m n = (.ok (m - n) : Checked ε Nat) := if_pos h

/-! ## Computations that look at no places -/

@[simp] theorem lift_ok (a : α) : lift (.ok a : Except ε α) = .ok a := rfl

@[simp] theorem lift_pure (a : α) : lift (pure a : Except ε α) = pure a := rfl

@[simp] theorem lift_error (e : ε) : lift (.error e : Except ε α) = .error (.fault e) := rfl

theorem lift_bind (x : Except ε α) (f : α → Except ε β) :
    lift (x >>= f) = lift x >>= fun a => lift (f a) := by
  cases x <;> rfl

theorem lift_map (f : α → β) (x : Except ε α) : lift (x.map f) = (lift x).map f := by
  cases x <;> rfl

theorem mapFault_lift (g : ε → ε') (x : Except ε α) :
    mapFault g (lift x) = lift (x.mapError g) := by
  cases x <;> rfl

theorem lift_ite (p : Prop) [Decidable p] (x y : Except ε α) :
    lift (if p then x else y) = if p then lift x else lift y := apply_ite lift p x y

/-- A fold whose steps look at no places looks at none. -/
theorem foldlM_eq_lift {f : σ → α → Checked ε σ} {g : σ → α → Except ε σ}
    (h : ∀ s a, f s a = lift (g s a)) (as : List α) (s : σ) :
    as.foldlM f s = lift (as.foldlM g s) := by
  induction as generalizing s with
  | nil => rfl
  | cons a as ih =>
    rw [List.foldlM_cons, List.foldlM_cons, lift_bind, h]
    exact congrArg _ (funext fun s' => ih s')

/-- A map whose steps look at no places looks at none. -/
theorem mapM_eq_lift {f : α → Checked ε β} {g : α → Except ε β} (h : ∀ a, f a = lift (g a))
    (as : List α) : as.mapM f = lift (as.mapM g) := by
  induction as with
  | nil => rfl
  | cons a as ih =>
    rw [List.mapM_cons, List.mapM_cons, h, ih, lift_bind]
    refine congrArg _ (funext fun b => ?_)
    rw [lift_bind]
    rfl

end Checked

end QueryRules
