import QueryRules.Json.Basic

/-!
# Values with floating-point zeros

A floating-point zero has a sign and is written with it, but both zeros are one number.

- `Json.Same`: two values are the same if their floating-point numbers are compared as numbers.
- `Json.Same.eq`: values that are the same are equal unless a floating-point zero stands in them,
  since only zeros lose their sign (`Json.unsigned_eq_self`).
-/

namespace QueryRules

/-- The value with no sign if it is a zero. -/
def Binary.unsigned {f : Format} : Binary f → Binary f
  | .finite _ 0 => .finite false 0
  | x => x

/-- The value is one of the two zeros. -/
def Binary.isZero {f : Format} : Binary f → Bool
  | .finite _ 0 => true
  | _ => false

theorem Binary.unsigned_eq_self {f : Format} {x : Binary f} (h : x.isZero = false) :
    x.unsigned = x := by
  unfold unsigned
  split
  · exact nomatch h
  · rfl

theorem Binary.isZero_unsigned {f : Format} (x : Binary f) : x.unsigned.isZero = x.isZero := by
  unfold unsigned
  split <;> rfl

namespace Json

mutual

/-- The value with no sign at its floating-point zeros. -/
def unsigned : Json → Json
  | .float x => .float x.unsigned
  | .array items => .array (unsignedItems items)
  | .object members => .object (unsignedMembers members)
  | v => v

/-- The same for the items of an array. -/
def unsignedItems : List Json → List Json
  | [] => []
  | v :: vs => unsigned v :: unsignedItems vs

/-- The same for the members of an object. -/
def unsignedMembers : List (String × Json) → List (String × Json)
  | [] => []
  | (k, v) :: ms => (k, unsigned v) :: unsignedMembers ms

end

mutual

/-- A floating-point zero stands in the value. -/
def hasZero : Json → Bool
  | .float x => x.isZero
  | .array items => hasZeroItem items
  | .object members => hasZeroMember members
  | _ => false

/-- The same for the items of an array. -/
def hasZeroItem : List Json → Bool
  | [] => false
  | v :: vs => hasZero v || hasZeroItem vs

/-- The same for the members of an object. -/
def hasZeroMember : List (String × Json) → Bool
  | [] => false
  | (_, v) :: ms => hasZero v || hasZeroMember ms

end

/-- The value is a floating-point zero. -/
def isZero : Json → Bool
  | .float x => x.isZero
  | _ => false

/-- The values are the same: whole numbers and floating-point numbers are apart, and of the latter
`0.0` and `-0.0` are one number. -/
def Same (v w : Json) : Prop := v.unsigned = w.unsigned

/-- The two zeros are the same. -/
theorem same_of_isZero {v w : Json} (hv : v.isZero) (hw : w.isZero) : v.Same w := by
  have hfloat {v : Json} (hv : v.isZero) : v.unsigned = .float (.finite false 0) := by
    unfold isZero at hv
    split at hv
    · rename_i x
      unfold Binary.isZero at hv
      split at hv
      · rfl
      · exact nomatch hv
    · exact nomatch hv
  exact (hfloat hv).trans (hfloat hw).symm

mutual

/-- Without a floating-point zero there is no sign to lose. -/
theorem unsigned_eq_self : ∀ {v : Json}, v.hasZero = false → v.unsigned = v
  | .float _, h => congrArg float (Binary.unsigned_eq_self h)
  | .array _, h => congrArg array (unsignedItems_eq_self h)
  | .object _, h => congrArg object (unsignedMembers_eq_self h)
  | .null, _ | .bool _, _ | .int _, _ | .string _, _ => rfl

theorem unsignedItems_eq_self : ∀ {vs : List Json}, hasZeroItem vs = false → unsignedItems vs = vs
  | [], _ => rfl
  | v :: vs, h => by
    obtain ⟨hv, hvs⟩ := Bool.or_eq_false_iff.1 h
    rw [unsignedItems, unsigned_eq_self hv, unsignedItems_eq_self hvs]

theorem unsignedMembers_eq_self : ∀ {ms : List (String × Json)}, hasZeroMember ms = false →
    unsignedMembers ms = ms
  | [], _ => rfl
  | (k, v) :: ms, h => by
    obtain ⟨hv, hms⟩ := Bool.or_eq_false_iff.1 h
    rw [unsignedMembers, unsigned_eq_self hv, unsignedMembers_eq_self hms]

end

mutual

/-- A zero stays one when it loses its sign. -/
theorem hasZero_unsigned : ∀ v : Json, v.unsigned.hasZero = v.hasZero
  | .float x => x.isZero_unsigned
  | .array items => hasZeroItem_unsigned items
  | .object members => hasZeroMember_unsigned members
  | .null | .bool _ | .int _ | .string _ => rfl

theorem hasZeroItem_unsigned : ∀ vs : List Json, hasZeroItem (unsignedItems vs) = hasZeroItem vs
  | [] => rfl
  | v :: vs => by
    rw [unsignedItems, hasZeroItem, hasZeroItem, hasZero_unsigned v, hasZeroItem_unsigned vs]

theorem hasZeroMember_unsigned : ∀ ms : List (String × Json),
    hasZeroMember (unsignedMembers ms) = hasZeroMember ms
  | [] => rfl
  | (k, v) :: ms => by
    rw [unsignedMembers, hasZeroMember, hasZeroMember, hasZero_unsigned v,
      hasZeroMember_unsigned ms]

end

/-- Of two values that are the same both have a floating-point zero in them or none has. -/
theorem Same.hasZero_eq {v w : Json} (h : v.Same w) : v.hasZero = w.hasZero := by
  rw [← hasZero_unsigned v, ← hasZero_unsigned w, show v.unsigned = w.unsigned from h]

/-- Values that are the same are equal if no floating-point zero stands in one of them. -/
theorem Same.eq {v w : Json} (h : v.Same w) (hv : v.hasZero = false) : v = w := by
  rw [← unsigned_eq_self hv, ← unsigned_eq_self (h.hasZero_eq.symm.trans hv)]
  exact h

end Json

end QueryRules
