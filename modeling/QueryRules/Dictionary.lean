/-!
# Dictionaries

A dictionary is a list of keys with their values, in ascending order of the keys.

- `Dictionary.insert` keeps the order (`Dictionary.ascending_insert`), and afterwards a look-up
  finds the new value at its key and the old ones elsewhere (`Dictionary.find?_insert`).
- `Dictionary.ofList_eq_self`: a dictionary is made up of its own entries.
-/

namespace QueryRules

/-- Values under keys, in ascending order of the keys. -/
abbrev Dictionary (α : Type) := List (String × α)

namespace Dictionary

variable {α : Type}

/-- The keys ascend, so none is there twice. -/
def Ascending (d : Dictionary α) : Prop := d.Pairwise fun a b => a.1 < b.1

instance (d : Dictionary α) : Decidable (Ascending d) :=
  inferInstanceAs (Decidable (d.Pairwise fun a b => a.1 < b.1))

/-- The value under a key. -/
def find? : Dictionary α → String → Option α
  | [], _ => none
  | (k, v) :: d, key => if key = k then some v else find? d key

/-- Some value stands under the key. -/
def hasKey (d : Dictionary α) (key : String) : Bool := (find? d key).isSome

/-- The dictionary with `value` under `key`, in place of what stood there. -/
def insert (key : String) (value : α) : Dictionary α → Dictionary α
  | [] => [(key, value)]
  | (k, v) :: d =>
    if key < k then (key, value) :: (k, v) :: d
    else if key = k then (key, value) :: d
    else (k, v) :: insert key value d

/-- The dictionary of the given entries; of two with one key the later counts. -/
def ofList (entries : List (String × α)) : Dictionary α :=
  entries.foldl (fun d e => insert e.1 e.2 d) []

/-- The dictionary without `key`. -/
def erase (key : String) (d : Dictionary α) : Dictionary α := d.filter (·.1 != key)

theorem mem_insert {key : String} {value : α} {d : Dictionary α} {p : String × α}
    (h : p ∈ insert key value d) : p = (key, value) ∨ p ∈ d := by
  induction d with
  | nil => simpa [insert] using h
  | cons q d ih =>
    obtain ⟨k, v⟩ := q
    simp only [insert] at h
    split at h
    · simpa using h
    · split at h
      · rcases List.mem_cons.1 h with h | h <;> simp [h]
      · rcases List.mem_cons.1 h with h | h
        · simp [h]
        · rcases ih h with h | h <;> simp [h]

theorem ascending_insert {key : String} {value : α} {d : Dictionary α} (h : Ascending d) :
    Ascending (insert key value d) := by
  induction d with
  | nil => simp [insert, Ascending]
  | cons q d ih =>
    obtain ⟨k, v⟩ := q
    obtain ⟨hq, hd⟩ := List.pairwise_cons.1 h
    simp only [insert]
    split
    · rename_i hlt
      refine List.pairwise_cons.2 ⟨fun p hp => ?_, h⟩
      rcases List.mem_cons.1 hp with rfl | hp
      · exact hlt
      · exact String.lt_trans hlt (hq p hp)
    · split
      · rename_i heq
        subst heq
        exact List.pairwise_cons.2 ⟨hq, hd⟩
      · rename_i hlt hne
        refine List.pairwise_cons.2 ⟨fun p hp => ?_, ih hd⟩
        rcases mem_insert hp with rfl | hp
        · exact (Std.lt_trichotomy k key).resolve_right fun h =>
            h.elim (fun h => hne h.symm) hlt
        · exact hq p hp

theorem ascending_ofList (entries : List (String × α)) : Ascending (ofList entries) := by
  have h : ∀ d : Dictionary α, Ascending d →
      Ascending (entries.foldl (fun d e => insert e.1 e.2 d) d) := by
    induction entries with
    | nil => exact fun d hd => hd
    | cons e entries ih => exact fun d hd => ih _ (ascending_insert hd)
  exact h [] .nil

/-- The keys of a dictionary are different. -/
theorem Ascending.nodup {d : Dictionary α} (h : Ascending d) : (d.map Prod.fst).Nodup := by
  refine List.pairwise_map.2 (h.imp fun hlt heq => ?_)
  exact String.lt_irrefl _ (heq ▸ hlt)

/-- What comes after all other keys is put at the end. -/
theorem insert_eq_append {key : String} {value : α} {d : Dictionary α}
    (h : ∀ m ∈ d, m.1 < key) : insert key value d = d ++ [(key, value)] := by
  induction d with
  | nil => rfl
  | cons m d ih =>
    obtain ⟨hm, hd⟩ := List.forall_mem_cons.1 h
    have hlt : ¬ key < m.1 := String.lt_asymm hm
    have hne : key ≠ m.1 := fun he => String.lt_irrefl _ (he ▸ hm)
    simp only [insert, if_neg hlt, if_neg hne, ih hd, List.cons_append]

/-- A dictionary is the dictionary of its entries. -/
theorem ofList_eq_self {d : Dictionary α} (h : Ascending d) : ofList d = d := by
  suffices hfold : ∀ front, Ascending (front ++ d) →
      d.foldl (fun d e => insert e.1 e.2 d) front = front ++ d from hfold [] h
  clear h
  induction d with
  | nil => simp
  | cons m d ih =>
    intro front hfront
    have hlt : ∀ e ∈ front, e.1 < m.1 := fun e he =>
      (List.pairwise_append.1 hfront).2.2 e he m List.mem_cons_self
    rw [List.foldl_cons, insert_eq_append hlt, ih _ (by simpa using hfront)]
    simp

theorem ascending_erase {key : String} {d : Dictionary α} (h : Ascending d) :
    Ascending (erase key d) := List.Pairwise.filter _ h

/-- Some value stands under the keys of the entries. -/
theorem hasKey_iff_mem {key : String} {d : Dictionary α} : hasKey d key ↔ key ∈ d.map Prod.fst := by
  induction d with
  | nil => simp [hasKey, find?]
  | cons m d ih =>
    unfold hasKey at ih
    by_cases hm : key = m.1
    · simp [hasKey, find?, hm]
    · simp [hasKey, find?, hm, ih]

theorem hasKey_eq_false {key : String} {d : Dictionary α} (h : ∀ m ∈ d, m.1 ≠ key) :
    hasKey d key = false := by
  rw [← Bool.not_eq_true, hasKey_iff_mem]
  intro hkey
  obtain ⟨m, hm, heq⟩ := List.mem_map.1 hkey
  exact h m hm heq

@[simp] theorem find?_insert {key k : String} {value : α} {d : Dictionary α} :
    find? (insert key value d) k = if k = key then some value else find? d k := by
  induction d with
  | nil => simp [insert, find?]
  | cons q d ih =>
    obtain ⟨k', v⟩ := q
    simp only [insert]
    split
    · simp [find?]
    · split
      · rename_i heq
        subst heq
        simp only [find?]
        split <;> rfl
      · rename_i hne
        simp only [find?, ih]
        by_cases h1 : k = k'
        · subst h1
          simp [Ne.symm hne]
        · simp [h1]

theorem hasKey_insert {key k : String} {value : α} {d : Dictionary α} :
    hasKey (insert key value d) k ↔ k = key ∨ hasKey d k := by
  unfold hasKey
  rw [find?_insert]
  split <;> simp [*]

/-- A dictionary has the keys that its entries have. -/
theorem hasKey_ofList {key : String} {entries : List (String × α)} :
    hasKey (ofList entries) key ↔ key ∈ entries.map Prod.fst := by
  suffices hfold : ∀ d : Dictionary α, hasKey (entries.foldl (fun d e => insert e.1 e.2 d) d) key ↔
      hasKey d key ∨ key ∈ entries.map Prod.fst by
    exact (hfold []).trans (by simp [hasKey, find?])
  induction entries with
  | nil => simp
  | cons e entries ih =>
    intro d
    rw [List.foldl_cons, ih, hasKey_insert, List.map_cons, List.mem_cons, or_assoc]
    exact or_left_comm

@[simp] theorem find?_erase {key k : String} {d : Dictionary α} :
    find? (erase key d) k = if k = key then none else find? d k := by
  induction d with
  | nil => simp [erase, find?]
  | cons q d ih =>
    obtain ⟨k', v⟩ := q
    simp only [erase] at ih
    by_cases h : k' = key
    · subst h
      simp only [erase, List.filter_cons, bne_self_eq_false, Bool.false_eq_true, if_false, ih,
        find?]
      split <;> rfl
    · have : (k' != key) = true := by simpa using h
      simp only [erase, List.filter_cons, this, if_true, find?, ih]
      by_cases h1 : k = k'
      · subst h1
        simp [h]
      · simp [h1]

end Dictionary

end QueryRules
