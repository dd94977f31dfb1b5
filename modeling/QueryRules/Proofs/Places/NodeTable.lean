import Mathlib.Data.List.Induction
import QueryRules.Match.Trie
import QueryRules.Proofs.Places.Checked

/-!
# Tries as tables of nodes

A trie whose nodes stand in one list and name one another by their places.

- `NodeTable.insert` stores a target; `NodeTable.targets` is the view of a table by its texts.
- `NodeTable.WellFormed`: the table has a root, its edges lead to nodes, and no node is reached by
  two texts.
- `NodeTable.Represents.succeeds_insert`: storing a target looks at no place outside a well-formed
  table, leaves it well-formed, and changes the view as storing the target in a trie does.
-/

namespace QueryRules.Places

variable {α ε : Type}

/-- A node: what is stored under the text that leads to it, and the nodes one character further. -/
structure TableNode (α : Type) where
  edges : List (Char × Nat) := []
  exact : List α := []
  starts : List α := []

/-- The targets that ask for just the text, or for a longer one. -/
def TableNode.targets (node : TableNode α) (isPrefix : Bool) : List α :=
  if isPrefix then node.starts else node.exact

/-- The node with one more target. -/
def TableNode.addTarget [DecidableEq α] (isPrefix : Bool) (a : α) (node : TableNode α) :
    TableNode α :=
  if isPrefix then { node with starts := Trie.addNew a node.starts }
  else { node with exact := Trie.addNew a node.exact }

/-- The node with one more edge. -/
def TableNode.addEdge (c : Char) (next : Nat) (node : TableNode α) : TableNode α :=
  { node with edges := node.edges ++ [(c, next)] }

/-- The node that leads nowhere and stores nothing. -/
def TableNode.empty : TableNode α := {}

/-- The nodes of a trie; the first one is the root. -/
structure NodeTable (α : Type) where
  nodes : List (TableNode α) := [.empty]

namespace NodeTable

/-- The node one character further; if there is none, one is added at the end. -/
def descend (p : NodeTable α × Nat) (c : Char) : Checked ε (NodeTable α × Nat) := do
  let node ← Checked.get p.1.nodes p.2
  match node.edges.lookup c with
  | some next => return (p.1, next)
  | none =>
    let next := p.1.nodes.length
    let nodes ← Checked.modify (p.1.nodes ++ [TableNode.empty]) p.2 (TableNode.addEdge c next)
    return (⟨nodes⟩, next)

/-- The table with one more target under a text. -/
def insert [DecidableEq α] (t : NodeTable α) (isPrefix : Bool) (a : α) (key : List Char) :
    Checked ε (NodeTable α) := do
  let (t, last) ← key.foldlM descend (t, 0)
  let nodes ← Checked.modify t.nodes last (TableNode.addTarget isPrefix a)
  return ⟨nodes⟩

/-! ## The view of a table by its texts -/

/-- The place of the node one character further. -/
def next? (t : NodeTable α) (i : Nat) (c : Char) : Option Nat :=
  (t.nodes[i]?).bind fun node => node.edges.lookup c

/-- The place of the node under a text. -/
def find? (t : NodeTable α) (key : List Char) : Option Nat := key.foldlM t.next? 0

/-- The targets under a text. -/
def targets (t : NodeTable α) (isPrefix : Bool) (key : List Char) : List α :=
  (((t.find? key).bind (t.nodes[·]?)).map (·.targets isPrefix)).getD []

@[simp] theorem find?_nil (t : NodeTable α) : t.find? [] = some 0 := rfl

theorem find?_concat (t : NodeTable α) (key : List Char) (c : Char) :
    t.find? (key ++ [c]) = (t.find? key).bind (t.next? · c) := by
  rw [find?, List.foldlM_append]
  cases h : key.foldlM t.next? 0 with
  | none => simp [find?, h]
  | some i => simp [find?, h]

/-- The table has a root, its edges lead to nodes, and no node is reached by two texts. -/
structure WellFormed (t : NodeTable α) : Prop where
  root : 0 < t.nodes.length
  next_lt : ∀ i c j, t.next? i c = some j → j < t.nodes.length
  find_inj : ∀ key key' i, t.find? key = some i → t.find? key' = some i → key = key'

theorem next?_empty (i : Nat) (c : Char) : ({} : NodeTable α).next? i c = none := by
  cases i <;> rfl

theorem find?_empty (key : List Char) :
    ({} : NodeTable α).find? key = if key = [] then some 0 else none := by
  rcases List.eq_nil_or_concat' key with rfl | ⟨front, c, rfl⟩
  · rfl
  · simp [find?_concat, next?_empty]

theorem wellFormed_empty : WellFormed ({} : NodeTable α) := by
  refine ⟨Nat.zero_lt_one, fun i c j h => ?_, fun key key' i h h' => ?_⟩
  · rw [next?_empty] at h
    exact nomatch h
  · rw [find?_empty] at h h'
    simp_all

theorem targets_empty (isPrefix : Bool) (key : List Char) :
    ({} : NodeTable α).targets isPrefix key = [] := by
  rw [targets, find?_empty]
  split <;> cases isPrefix <;> rfl

variable {t : NodeTable α}

theorem WellFormed.find_lt (h : t.WellFormed) {key : List Char} {i : Nat}
    (hi : t.find? key = some i) : i < t.nodes.length := by
  rcases List.eq_nil_or_concat' key with rfl | ⟨front, c, rfl⟩
  · obtain rfl := Option.some.inj hi
    exact h.root
  · rw [find?_concat, Option.bind_eq_some_iff] at hi
    obtain ⟨j, -, hj⟩ := hi
    exact h.next_lt j c i hj

/-! ## A new node -/

/-- The table with a new node behind an edge. -/
def grow (t : NodeTable α) (current : Nat) (c : Char) : NodeTable α :=
  ⟨(t.nodes ++ [TableNode.empty]).modify current (TableNode.addEdge c t.nodes.length)⟩

section

variable {key : List Char} {current : Nat} {c : Char}

theorem getElem?_grow (i : Nat) : (t.grow current c).nodes[i]? =
    (if i = t.nodes.length then some TableNode.empty else t.nodes[i]?).map
      fun node => if i = current then node.addEdge c t.nodes.length else node := by
  rw [grow, List.getElem?_modify]
  rcases Nat.lt_trichotomy i t.nodes.length with hi | rfl | hi
  · rw [List.getElem?_append_left hi, if_neg (Nat.ne_of_lt hi)]
    simp only [eq_comm]
    rfl
  · simp [eq_comm]
  · rw [List.getElem?_eq_none (by rw [List.length_append]; exact hi), if_neg (Nat.ne_of_gt hi),
      List.getElem?_eq_none (Nat.le_of_lt hi)]
    rfl

theorem next?_grow (hlt : current < t.nodes.length) (hnone : t.next? current c = none) (i : Nat)
    (d : Char) : (t.grow current c).next? i d =
      if i = current ∧ d = c then some t.nodes.length else t.next? i d := by
  obtain ⟨node, hnode⟩ : ∃ node, t.nodes[current]? = some node :=
    ⟨_, List.getElem?_eq_getElem hlt⟩
  rw [next?, hnode, Option.bind_some] at hnone
  have hlookup : (node.addEdge c t.nodes.length).edges.lookup d =
      if d = c then some t.nodes.length else node.edges.lookup d := by
    rw [TableNode.addEdge, List.lookup_append]
    rcases eq_or_ne d c with rfl | hd
    · simp only [hnone, List.lookup_cons_self, Option.none_or, if_true]
    · have hbeq : (d == c) = false := beq_false_of_ne hd
      rw [List.lookup_cons, hbeq, List.lookup_nil, Option.or_none, if_neg hd]
  simp only [next?, getElem?_grow]
  rcases eq_or_ne i current with rfl | hne
  · have hlast : i ≠ t.nodes.length := Nat.ne_of_lt hlt
    simp [hnode, hlookup, hlast]
  · rcases eq_or_ne i t.nodes.length with rfl | hlast
    · simp [hne, TableNode.empty]
    · simp [hne, hlast]

/-- The new node stands under the text with one more character, the others where they stood. -/
theorem find?_grow (h : t.WellFormed) (hcurrent : t.find? key = some current)
    (hnone : t.next? current c = none) (key' : List Char) :
    (t.grow current c).find? key' =
      if key' = key ++ [c] then some t.nodes.length else t.find? key' := by
  have hnext := next?_grow (h.find_lt hcurrent) hnone
  have hnew (d : Char) : t.next? t.nodes.length d = none := by simp [next?]
  have hkey : t.find? (key ++ [c]) = none := by
    rw [find?_concat, hcurrent, Option.bind_some, hnone]
  induction key' using List.reverseRecOn with
  | nil => simp
  | append_singleton front d ih =>
    have hconcat : front ++ [d] = key ++ [c] ↔ front = key ∧ d = c := by
      rw [← List.reverse_inj]
      simp [and_comm]
    simp only [find?_concat, ih, hconcat]
    split
    · -- no edge leads on from the new node
      rename_i hfront
      subst hfront
      have hne : t.nodes.length ≠ current := Nat.ne_of_gt (h.find_lt hcurrent)
      have hlong : key ++ [c] ≠ key := by simp
      simp [hnext, hne, hnew, hlong, hkey]
    · cases hfind : t.find? front with
      | none =>
        have hne : front ≠ key := by
          rintro rfl
          exact nomatch hfind.symm.trans hcurrent
        simp [hne]
      | some i =>
        -- the current node is reached by no other text
        have hi : i = current ↔ front = key := by
          constructor
          · rintro rfl
            exact h.find_inj _ _ _ hfind hcurrent
          · rintro rfl
            exact Option.some.inj (hfind.symm.trans hcurrent)
        simp only [Option.bind_some, hnext, hi]

theorem WellFormed.grow (h : t.WellFormed) (hcurrent : t.find? key = some current)
    (hnone : t.next? current c = none) : (t.grow current c).WellFormed := by
  have hlength : (t.grow current c).nodes.length = t.nodes.length + 1 := by
    simp [NodeTable.grow]
  have hfind := find?_grow h hcurrent hnone
  refine ⟨by omega, fun i d j hj => ?_, fun front front' i hi hi' => ?_⟩
  · rw [next?_grow (h.find_lt hcurrent) hnone] at hj
    rw [hlength]
    split at hj
    · rw [← Option.some.inj hj]
      exact Nat.lt_succ_self _
    · exact Nat.lt_succ_of_lt (h.next_lt i d j hj)
  · rw [hfind] at hi hi'
    split at hi
    · split at hi'
      · simp_all
      · -- the old nodes stand before the new one
        have := h.find_lt hi'
        rw [← Option.some.inj hi] at this
        exact absurd this (Nat.lt_irrefl _)
    · split at hi'
      · have := h.find_lt hi
        rw [← Option.some.inj hi'] at this
        exact absurd this (Nat.lt_irrefl _)
      · exact h.find_inj _ _ _ hi hi'

/-- A new node stores nothing. -/
theorem targets_grow (h : t.WellFormed) (hcurrent : t.find? key = some current)
    (hnone : t.next? current c = none) (isPrefix : Bool) (key' : List Char) :
    (t.grow current c).targets isPrefix key' = t.targets isPrefix key' := by
  rw [targets, targets, find?_grow h hcurrent hnone]
  split
  · rename_i hkey
    have hnew : t.find? key' = none := by
      rw [hkey, find?_concat, hcurrent, Option.bind_some, hnone]
    have hne : t.nodes.length ≠ current := Nat.ne_of_gt (h.find_lt hcurrent)
    cases isPrefix <;> simp [hnew, getElem?_grow, hne, TableNode.targets, TableNode.empty]
  · cases hfind : t.find? key' with
    | none => rfl
    | some i =>
      have hlast : i ≠ t.nodes.length := Nat.ne_of_lt (h.find_lt hfind)
      rw [Option.bind_some, Option.bind_some, getElem?_grow, if_neg hlast, Option.map_map]
      congr 2
      funext node
      dsimp only [Function.comp_apply]
      split <;> rfl

end

/-! ## Storing a target -/

/-- One character further there is a node, new or old, and the view stays as it is. -/
theorem WellFormed.descend (h : t.WellFormed) {key : List Char} {current : Nat}
    (hcurrent : t.find? key = some current) (c : Char) :
    Succeeds (descend (t, current) c : Checked ε _) fun p => p.1.WellFormed ∧
      p.1.find? (key ++ [c]) = some p.2 ∧
      ∀ isPrefix key', p.1.targets isPrefix key' = t.targets isPrefix key' := by
  have hlt := h.find_lt hcurrent
  obtain ⟨node, hnode⟩ : ∃ node, t.nodes[current]? = some node :=
    ⟨_, List.getElem?_eq_getElem hlt⟩
  have hnext : t.next? current c = node.edges.lookup c := by
    rw [next?, hnode, Option.bind_some]
  cases hedge : node.edges.lookup c with
  | some next =>
    refine ⟨(t, next), ?_, h, ?_, fun _ _ => rfl⟩
    · simp only [NodeTable.descend, Checked.get_eq_ok hnode, bind, Except.bind, hedge]
      rfl
    · rw [find?_concat, hcurrent, Option.bind_some, hnext, hedge]
  | none =>
    have hnone := hnext.trans hedge
    refine ⟨(t.grow current c, t.nodes.length), ?_, h.grow hcurrent hnone, ?_,
      targets_grow h hcurrent hnone⟩
    · have hmodify : current < (t.nodes ++ [TableNode.empty]).length := by
        rw [List.length_append]
        exact Nat.lt_add_right 1 hlt
      simp only [NodeTable.descend, Checked.get_eq_ok hnode, bind, Except.bind, hedge,
        Checked.modify_eq_ok hmodify]
      rfl
    · rw [find?_grow h hcurrent hnone, if_pos rfl]

/-- Behind all characters of a text stands the node under it. -/
theorem WellFormed.foldlM_descend (h : t.WellFormed) {front : List Char} {current : Nat}
    (hcurrent : t.find? front = some current) (key : List Char) :
    Succeeds (key.foldlM NodeTable.descend (t, current) : Checked ε _) fun p => p.1.WellFormed ∧
      p.1.find? (front ++ key) = some p.2 ∧
      ∀ isPrefix key', p.1.targets isPrefix key' = t.targets isPrefix key' := by
  induction key generalizing t front current with
  | nil => exact ⟨_, rfl, h, by rwa [List.append_nil], fun _ _ => rfl⟩
  | cons c key ih =>
    rw [List.foldlM_cons]
    refine (h.descend hcurrent c).bind fun p hp => ?_
    obtain ⟨hp, hfind, htargets⟩ := hp
    refine (ih hp hfind).imp fun q hq => ⟨hq.1, ?_, fun isPrefix key' => ?_⟩
    · rw [← hq.2.1, List.append_assoc, List.singleton_append]
    · rw [hq.2.2, htargets]

/-- A target at the node under a text. -/
theorem WellFormed.store [DecidableEq α] (h : t.WellFormed) {key : List Char} {last : Nat}
    (hlast : t.find? key = some last) (isPrefix : Bool) (a : α) :
    let u : NodeTable α := ⟨t.nodes.modify last (TableNode.addTarget isPrefix a)⟩
    u.WellFormed ∧ ∀ b key', u.targets b key' =
      if b = isPrefix ∧ key' = key then Trie.addNew a (t.targets b key')
      else t.targets b key' := by
  intro u
  have hget (i : Nat) : u.nodes[i]? =
      (t.nodes[i]?).map fun node => if i = last then node.addTarget isPrefix a else node := by
    simp only [u, List.getElem?_modify, eq_comm]
    rfl
  have hnext : u.next? = t.next? := by
    funext i c
    rw [next?, next?, hget, Option.bind_map]
    congr 1
    funext node
    simp only [Function.comp_apply, TableNode.addTarget]
    split
    · split <;> rfl
    · rfl
  have hfind (key' : List Char) : u.find? key' = t.find? key' := by
    rw [find?, hnext]
    rfl
  refine ⟨⟨?_, ?_, ?_⟩, fun b key' => ?_⟩
  · simpa [u] using h.root
  · simpa [u, hnext] using h.next_lt
  · simpa only [hfind] using h.find_inj
  · rw [targets, targets, hfind]
    cases hkey : t.find? key' with
    | none =>
      have hne : key' ≠ key := by
        rintro rfl
        exact nomatch hkey.symm.trans hlast
      simp [hne]
    | some i =>
      -- the node under the text is that of no other text
      have hi : i = last ↔ key' = key := by
        constructor
        · rintro rfl
          exact h.find_inj _ _ _ hkey hlast
        · rintro rfl
          exact Option.some.inj (hkey.symm.trans hlast)
      obtain ⟨node, hnode⟩ : ∃ node, t.nodes[i]? = some node :=
        ⟨_, List.getElem?_eq_getElem (h.find_lt hkey)⟩
      simp only [Option.bind_some, hget, hnode, Option.map_some, Option.getD_some, hi]
      by_cases he : key' = key
      · cases b <;> cases isPrefix <;> simp [he, TableNode.addTarget, TableNode.targets]
      · simp [he]

/-- A well-formed table has the targets of a trie. -/
structure Represents (t : NodeTable α) (trie : Trie α) : Prop where
  wellFormed : t.WellFormed
  targets_eq : ∀ isPrefix key, t.targets isPrefix key = trie.targets isPrefix key

theorem represents_empty : Represents ({} : NodeTable α) .empty where
  wellFormed := wellFormed_empty
  targets_eq isPrefix key := by
    rw [targets_empty]
    cases key <;> cases isPrefix <;> rfl

/-- Storing a target never looks outside, and adds to a table what it adds to a trie. -/
theorem Represents.succeeds_insert [DecidableEq α] {trie : Trie α} (h : t.Represents trie)
    (isPrefix : Bool) (a : α) (key : List Char) :
    Succeeds (t.insert isPrefix a key : Checked ε _) fun u =>
      u.Represents (trie.insert isPrefix a key) := by
  refine (h.wellFormed.foldlM_descend (find?_nil t) key).bind fun p hp => ?_
  obtain ⟨hp, hfind, htargets⟩ := hp
  obtain ⟨hwell, hview⟩ := hp.store hfind isPrefix a
  refine ⟨_, ?_, hwell, fun b key' => ?_⟩
  · simp only [Checked.modify_eq_ok (hp.find_lt hfind)]
    rfl
  · rw [hview, htargets, h.targets_eq, Trie.targets_insert]
    rfl

end NodeTable

end QueryRules.Places
