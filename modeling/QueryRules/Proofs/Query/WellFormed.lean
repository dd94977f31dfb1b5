import Mathlib.Data.List.Basic
import QueryRules.Query.Basic

/-!
# Well-formed queries

- `Query.WellFormed`: below the root every node is listed once, by its parent, and stands where one
  of its kind may stand.
- `Query.Regular`: moreover, every node has a larger number than its parent.
- The operations are described by the kinds and children of the entries that they leave
  (`lookup?_attach_of_ne`, `lookup?_remove`); changing the flags of nodes changes neither
  (`WellFormed.congr`).
-/

namespace QueryRules

/-- The kinds of nodes. -/
inductive NodeKind where
  | boolean
  | group
  | term
  deriving DecidableEq, Repr

/-- Which kinds of node may stand under which. -/
def NodeKind.admits : NodeKind → NodeKind → Bool
  | .boolean, .boolean | .boolean, .group | .group, .term | .group, .boolean => true
  | _, _ => false

namespace Node

/-- The kind of a node. -/
def kind : Node → NodeKind
  | .boolean .. => .boolean
  | .group .. => .group
  | .term _ => .term

/-- Which node may stand under which depends on their kinds only. -/
theorem admits_eq (p n : Node) : p.admits n = p.kind.admits n.kind := by
  cases p <;> cases n <;> rfl

@[simp] theorem kind_withChildren (n : Node) (ids : List Nat) :
    (n.withChildren ids).kind = n.kind := by
  cases n <;> rfl

/-- A node that admits another one takes children. -/
theorem children_withChildren {p n : Node} (h : p.admits n) (ids : List Nat) :
    (p.withChildren ids).children = ids := by
  cases p with
  | term t => exact nomatch h
  | _ => rfl

theorem children_withChildren_filter (n : Node) (p : Nat → Bool) :
    (n.withChildren (n.children.filter p)).children = n.children.filter p := by
  cases n <;> rfl

/-- Only groups admit terms. -/
theorem kind_eq_group {p n : Node} (h : p.admits n) (hn : n.kind = .term) : p.kind = .group := by
  rw [admits_eq, hn] at h
  cases hp : p.kind with
  | group => rfl
  | boolean => rw [hp] at h; exact nomatch h
  | term => rw [hp] at h; exact nomatch h

end Node

namespace Query

/-- The root is a boolean query without a parent. Every other node is listed once among the children
of its parent, which admits it, and whatever is listed is there and has the lister as its parent. -/
structure WellFormed (q : Query) : Prop where
  root : ∃ e, q.lookup? root = some e ∧ e.parent = none ∧ e.node.kind = .boolean
  listed : ∀ id e, id ≠ Query.root → q.lookup? id = some e →
    ∃ p f, e.parent = some p ∧ q.lookup? p = some f ∧ f.node.children.count id = 1 ∧
      f.node.admits e.node
  child : ∀ p f id, q.lookup? p = some f → id ∈ f.node.children →
    ∃ e, q.lookup? id = some e ∧ e.parent = some p

/-- A well-formed query in which every node has a larger number than its parent. -/
structure Regular (q : Query) : Prop where
  wellFormed : q.WellFormed
  parent_lt : ∀ id e p, q.lookup? id = some e → e.parent = some p → p < id

/-- A node that is listed by another one is not the root. -/
theorem WellFormed.ne_root {q : Query} (h : q.WellFormed) {id p : Nat} {e : Entry}
    (he : q.lookup? id = some e) (hp : e.parent = some p) : id ≠ Query.root := by
  rintro rfl
  obtain ⟨f, hf, hnone, -⟩ := h.root
  rw [he, Option.some.injEq] at hf
  rw [← hf, hp] at hnone
  exact nomatch hnone

/-! ## Changing the flags of nodes -/

/-- What well-formedness looks at in an entry. -/
def Entry.shape (e : Entry) : Option Nat × NodeKind × List Nat :=
  (e.parent, e.node.kind, e.node.children)

/-- Two queries have the same entries apart from flags. -/
def SameShape (q q' : Query) : Prop :=
  ∀ id, (q'.lookup? id).map Entry.shape = (q.lookup? id).map Entry.shape

theorem SameShape.symm {q q' : Query} (h : q.SameShape q') : q'.SameShape q := fun id => (h id).symm

theorem SameShape.trans {q q' q'' : Query} (h : q.SameShape q') (h' : q'.SameShape q'') :
    q.SameShape q'' := fun id => (h' id).trans (h id)

theorem SameShape.lookup? {q q' : Query} (h : q.SameShape q') {id : Nat} {e : Entry}
    (he : q.lookup? id = some e) : ∃ e', q'.lookup? id = some e' ∧ e'.parent = e.parent ∧
      e'.node.kind = e.node.kind ∧ e'.node.children = e.node.children := by
  have hid := h id
  rw [he, Option.map_some, Option.map_eq_some_iff] at hid
  obtain ⟨e', he', hshape⟩ := hid
  simp only [Entry.shape, Prod.mk.injEq] at hshape
  exact ⟨e', he', hshape⟩

/-- A query with the same entries apart from flags is well formed as well. -/
theorem WellFormed.congr {q q' : Query} (h : q.WellFormed) (hs : q.SameShape q') :
    q'.WellFormed := by
  constructor
  case root =>
    obtain ⟨e, he, hp, hk⟩ := h.root
    obtain ⟨e', he', hp', hk', -⟩ := hs.lookup? he
    exact ⟨e', he', hp'.trans hp, hk'.trans hk⟩
  case listed =>
    intro id e' hid he'
    obtain ⟨e, he, hp, hk, -⟩ := hs.symm.lookup? he'
    obtain ⟨p, f, hparent, hf, hcount, hadmits⟩ := h.listed id e hid he
    obtain ⟨f', hf', -, hfk, hfc⟩ := hs.lookup? hf
    refine ⟨p, f', hp ▸ hparent, hf', hfc ▸ hcount, ?_⟩
    rw [Node.admits_eq] at hadmits ⊢
    rwa [hfk, ← hk]
  case child =>
    intro p f' id hf' hid
    obtain ⟨f, hf, -, -, hc⟩ := hs.symm.lookup? hf'
    obtain ⟨e, he, hp⟩ := h.child p f id hf (hc ▸ hid)
    obtain ⟨e', he', hp', -⟩ := hs.lookup? he
    exact ⟨e', he', hp'.trans hp⟩

theorem Regular.congr {q q' : Query} (h : q.Regular) (hs : q.SameShape q') : q'.Regular where
  wellFormed := h.wellFormed.congr hs
  parent_lt id e' p he' hp' := by
    obtain ⟨e, he, hp, -⟩ := hs.symm.lookup? he'
    exact h.parent_lt id e p he (hp.trans hp')

theorem sameShape_modify (q : Query) (id : Nat) {f : Node → Node}
    (hk : ∀ n, (f n).kind = n.kind) (hc : ∀ n, (f n).children = n.children) :
    q.SameShape (q.modify id f) := by
  intro i
  rw [lookup?_modify]
  split
  · rw [Option.map_map]
    congr 1
    funext e
    simp [Entry.shape, hk, hc]
  · rfl

theorem sameShape_requireAll (q : Query) : q.SameShape q.requireAll := by
  have hfold (ids : List Nat) (q : Query) :
      q.SameShape (ids.foldl (fun q id => q.modify id Node.require) q) := by
    induction ids generalizing q with
    | nil => exact fun _ => rfl
    | cons id ids ih =>
      have hnode (n : Node) : n.require.kind = n.kind ∧ n.require.children = n.children := by
        unfold Node.require
        split <;> exact ⟨rfl, rfl⟩
      exact (q.sameShape_modify id (fun n => (hnode n).1) fun n => (hnode n).2).trans (ih _)
  exact hfold _ q

theorem sameShape_asGenerated (q : Query) : q.SameShape q.asGenerated := by
  intro id
  have hlookup : q.asGenerated.lookup? id =
      (q.lookup? id).map fun e => { e with node := e.node.asGenerated } := by
    unfold lookup? asGenerated
    rw [List.getElem?_map]
    cases q.entries[id]? <;> rfl
  rw [hlookup, Option.map_map]
  congr 1
  funext e
  cases e with
  | mk parent node => cases node <;> rfl

/-! ## The kind of a node -/

/-- A node of a kind stands behind a number. -/
def HasKind (q : Query) (id : Nat) (k : NodeKind) : Prop :=
  ∃ n, q.node? id = some n ∧ n.kind = k

theorem lookup?_of_node? {q : Query} {id : Nat} {n : Node} (h : q.node? id = some n) :
    ∃ e, q.lookup? id = some e ∧ e.node = n := by
  unfold node? at h
  exact Option.map_eq_some_iff.1 h

theorem WellFormed.hasKind_root {q : Query} (h : q.WellFormed) : q.HasKind Query.root .boolean := by
  obtain ⟨e, he, -, hk⟩ := h.root
  exact ⟨e.node, by rw [node?, he]; rfl, hk⟩

/-- A term is not the root. -/
theorem WellFormed.ne_root_of_term {q : Query} (h : q.WellFormed) {id : Nat}
    (ht : q.HasKind id .term) : id ≠ Query.root := by
  rintro rfl
  obtain ⟨n, hn, hk⟩ := h.hasKind_root
  obtain ⟨m, hm, ht⟩ := ht
  rw [hn, Option.some.injEq] at hm
  rw [← hm, hk] at ht
  exact nomatch ht

theorem hasKind_of_term? {q : Query} {id : Nat} (h : (q.term? id).isSome) :
    q.HasKind id .term := by
  unfold term? at h
  split at h
  · rename_i t hn
    exact ⟨_, hn, rfl⟩
  · exact nomatch h

/-! ## Adding a node -/

/-- The other entries keep their parents and kinds when a node is attached; the parent of the new
node gets one more child. -/
theorem lookup?_attach_of_ne (q : Query) {parent : Nat} {p node : Node}
    (hp : q.node? parent = some p) (ha : p.admits node) {id : Nat} (hid : id ≠ q.entries.length)
    {e' : Entry} : (q.attach parent node).1.lookup? id = some e' → ∃ e, q.lookup? id = some e ∧
      e'.parent = e.parent ∧ e'.node.kind = e.node.kind ∧
      e'.node.children = e.node.children ++ if id = parent then [q.entries.length] else [] := by
  intro he'
  rw [lookup?_attach, if_neg hid] at he'
  split at he'
  · rename_i hparent
    obtain ⟨e, he, rfl⟩ := Option.map_eq_some_iff.1 he'
    obtain ⟨f, hf, rfl⟩ := lookup?_of_node? hp
    rw [← hparent, he, Option.some.injEq] at hf
    subst hf
    exact ⟨e, he, rfl, Node.kind_withChildren _ _,
      (Node.children_withChildren ha _).trans (by rw [if_pos hparent])⟩
  · rename_i hparent
    exact ⟨e', he', rfl, rfl, by rw [if_neg hparent, List.append_nil]⟩

/-- What is there stays there when a node is attached. -/
theorem exists_lookup?_attach (q : Query) {parent : Nat} {p node : Node}
    (hp : q.node? parent = some p) (ha : p.admits node) {id : Nat} {e : Entry}
    (he : q.lookup? id = some e) : ∃ e', (q.attach parent node).1.lookup? id = some e' ∧
      e'.parent = e.parent ∧ e'.node.kind = e.node.kind ∧
      e'.node.children = e.node.children ++ if id = parent then [q.entries.length] else [] := by
  have hid := Nat.ne_of_lt (lt_length_of_lookup? he)
  have hlive : ∃ e', (q.attach parent node).1.lookup? id = some e' := by
    rw [lookup?_attach, if_neg hid, he]
    split
    · exact ⟨_, rfl⟩
    · exact ⟨e, rfl⟩
  obtain ⟨e', he'⟩ := hlive
  obtain ⟨f, hf, hshape⟩ := q.lookup?_attach_of_ne hp ha hid he'
  rw [he, Option.some.injEq] at hf
  exact ⟨e', he', hf ▸ hshape⟩

theorem lookup?_attach_self (q : Query) (parent : Nat) (node : Node) :
    (q.attach parent node).1.lookup? q.entries.length = some ⟨some parent, node⟩ := by
  rw [lookup?_attach, if_pos rfl]

theorem node?_attach_self (q : Query) (parent : Nat) (node : Node) :
    (q.attach parent node).1.node? q.entries.length = some node := by
  rw [node?, lookup?_attach_self]
  rfl

/-- The number of the next node is listed nowhere. -/
theorem WellFormed.length_not_mem {q : Query} (h : q.WellFormed) {p : Nat} {f : Entry}
    (hf : q.lookup? p = some f) : q.entries.length ∉ f.node.children := by
  intro hm
  obtain ⟨e, he, -⟩ := h.child p f _ hf hm
  exact Nat.lt_irrefl _ (lt_length_of_lookup? he)

theorem WellFormed.attach {q : Query} (h : q.WellFormed) {parent : Nat} {p node : Node}
    (hp : q.node? parent = some p) (ha : p.admits node) (hc : node.children = []) :
    (q.attach parent node).1.WellFormed := by
  have hold {id : Nat} {e : Entry} (he : q.lookup? id = some e) :=
    q.exists_lookup?_attach hp ha he
  obtain ⟨f, hf, rfl⟩ := lookup?_of_node? hp
  constructor
  case root =>
    obtain ⟨e, he, hparent, hk⟩ := h.root
    obtain ⟨e', he', hparent', hk', -⟩ := hold he
    exact ⟨e', he', hparent'.trans hparent, hk'.trans hk⟩
  case listed =>
    intro id e' hid he'
    obtain ⟨f', hf', -, hfk, hfc⟩ := hold hf
    by_cases hn : id = q.entries.length
    · -- the new node is listed by its parent only
      subst hn
      rw [lookup?_attach_self, Option.some.injEq] at he'
      subst he'
      refine ⟨parent, f', rfl, hf', ?_, ?_⟩
      · rw [hfc, if_pos rfl, List.count_append, List.count_eq_zero.2 (h.length_not_mem hf)]
        simp
      · rw [Node.admits_eq] at ha ⊢
        rwa [hfk]
    · obtain ⟨e, he, hparent, hk, -⟩ := q.lookup?_attach_of_ne hp ha hn he'
      obtain ⟨i, g, hi, hg, hcount, hadmits⟩ := h.listed id e hid he
      obtain ⟨g', hg', -, hgk, hgc⟩ := hold hg
      refine ⟨i, g', hparent.trans hi, hg', ?_, ?_⟩
      · rw [hgc, List.count_append, hcount]
        split
        · rw [List.count_singleton, if_neg (by simpa using Ne.symm hn)]
        · rfl
      · rw [Node.admits_eq] at hadmits ⊢
        rwa [hgk, hk]
  case child =>
    intro i g' id hg' hid
    by_cases hi : i = q.entries.length
    · subst hi
      rw [lookup?_attach_self, Option.some.injEq] at hg'
      subst hg'
      rw [hc] at hid
      exact nomatch hid
    · obtain ⟨g, hg, -, -, hgc⟩ := q.lookup?_attach_of_ne hp ha hi hg'
      rw [hgc, List.mem_append] at hid
      rcases hid with hid | hid
      · obtain ⟨e, he, hparent⟩ := h.child i g id hg hid
        obtain ⟨e', he', hparent', -⟩ := hold he
        exact ⟨e', he', hparent'.trans hparent⟩
      · split at hid
        · rename_i hi
          obtain rfl := List.mem_singleton.1 hid
          exact ⟨_, q.lookup?_attach_self parent node, by rw [hi]⟩
        · exact nomatch hid

theorem Regular.attach {q : Query} (h : q.Regular) {parent : Nat} {p node : Node}
    (hp : q.node? parent = some p) (ha : p.admits node) (hc : node.children = []) :
    (q.attach parent node).1.Regular where
  wellFormed := h.wellFormed.attach hp ha hc
  parent_lt id e' i he' hi := by
    by_cases hn : id = q.entries.length
    · subst hn
      rw [lookup?_attach_self, Option.some.injEq] at he'
      subst he'
      obtain ⟨f, hf, -⟩ := lookup?_of_node? hp
      rw [← Option.some.inj hi]
      exact lt_length_of_lookup? hf
    · obtain ⟨e, he, hparent, -⟩ := q.lookup?_attach_of_ne hp ha hn he'
      exact h.parent_lt id e i he (hparent.symm.trans hi)

/-! ## Removing a term -/

/-- The query without a node that its parent does not list any more. -/
def remove (q : Query) (parent id : Nat) : Query := (q.erase id).detach parent id

/-- The other entries keep their parents and kinds when a node is removed, and lose it from their
children. -/
theorem lookup?_remove (q : Query) (parent id : Nat) {i : Nat} {e' : Entry} :
    (q.remove parent id).lookup? i = some e' ↔ i ≠ id ∧ ∃ e, q.lookup? i = some e ∧
      e' = { e with node := if i = parent
        then e.node.withChildren (e.node.children.filter (· ≠ id)) else e.node } := by
  unfold remove detach
  rw [lookup?_modify, lookup?_erase]
  by_cases hi : i = id
  · simp [hi]
  · rw [if_neg hi]
    split
    · rw [Option.map_eq_some_iff, and_iff_right hi]
      exact exists_congr fun e => and_congr_right fun _ => eq_comm
    · simp [hi]

/-- Only the parent of a node lists it. -/
theorem WellFormed.children_filter {q : Query} (h : q.WellFormed) {parent id : Nat} {s : Entry}
    (hs : q.lookup? id = some s) (hp : s.parent = some parent) {i : Nat} {e : Entry}
    (he : q.lookup? i = some e) :
    (if i = parent then e.node.withChildren (e.node.children.filter (· ≠ id))
      else e.node).children = e.node.children.filter (· ≠ id) := by
  split
  · exact Node.children_withChildren_filter _ _
  · rename_i hi
    symm
    rw [List.filter_eq_self]
    intro c hc
    rw [decide_eq_true_eq]
    rintro rfl
    obtain ⟨t, ht, hti⟩ := h.child i e c he hc
    rw [hs, Option.some.injEq] at ht
    subst ht
    rw [hp, Option.some.injEq] at hti
    exact hi hti.symm

/-- What is there after a node is removed was there before, of the same kind. -/
theorem WellFormed.lookup?_of_remove {q : Query} (h : q.WellFormed) {parent id : Nat} {s : Entry}
    (hs : q.lookup? id = some s) (hp : s.parent = some parent) {i : Nat} {e' : Entry}
    (he' : (q.remove parent id).lookup? i = some e') :
    i ≠ id ∧ ∃ e, q.lookup? i = some e ∧ e'.parent = e.parent ∧ e'.node.kind = e.node.kind ∧
      e'.node.children = e.node.children.filter (· ≠ id) := by
  obtain ⟨hi, e, he, rfl⟩ := (q.lookup?_remove parent id).1 he'
  refine ⟨hi, e, he, rfl, ?_, h.children_filter hs hp he⟩
  dsimp only
  split
  · exact Node.kind_withChildren _ _
  · rfl

/-- Everything else is still there after a node is removed. -/
theorem WellFormed.exists_lookup?_remove {q : Query} (h : q.WellFormed) {parent id : Nat}
    {s : Entry} (hs : q.lookup? id = some s) (hp : s.parent = some parent) {i : Nat} {e : Entry}
    (hi : i ≠ id) (he : q.lookup? i = some e) :
    ∃ e', (q.remove parent id).lookup? i = some e' ∧ e'.parent = e.parent ∧
      e'.node.kind = e.node.kind ∧ e'.node.children = e.node.children.filter (· ≠ id) := by
  have he' := (q.lookup?_remove parent id).2 ⟨hi, e, he, rfl⟩
  obtain ⟨-, f, hf, hshape⟩ := h.lookup?_of_remove hs hp he'
  rw [he, Option.some.injEq] at hf
  exact ⟨_, he', hf ▸ hshape⟩

/-- Removing a childless node below the root leaves a query well formed. -/
theorem WellFormed.remove {q : Query} (h : q.WellFormed) {parent id : Nat} {s : Entry}
    (hs : q.lookup? id = some s) (hp : s.parent = some parent) (hc : s.node.children = []) :
    (q.remove parent id).WellFormed := by
  have hold {i : Nat} {e' : Entry} (he' : (q.remove parent id).lookup? i = some e') :=
    h.lookup?_of_remove hs hp he'
  have hnew {i : Nat} {e : Entry} (hi : i ≠ id) (he : q.lookup? i = some e) :=
    h.exists_lookup?_remove hs hp hi he
  have hroot := h.ne_root hs hp
  constructor
  case root =>
    obtain ⟨e, he, hparent, hk⟩ := h.root
    obtain ⟨e', he', hparent', hk', -⟩ := hnew hroot.symm he
    exact ⟨e', he', hparent'.trans hparent, hk'.trans hk⟩
  case listed =>
    intro i e' hi he'
    obtain ⟨hne, e, he, hparent, hk, -⟩ := hold he'
    obtain ⟨p, f, hpar, hf, hcount, hadmits⟩ := h.listed i e hi he
    -- a node with a child is not the one that is removed
    have hpid : p ≠ id := by
      rintro rfl
      rw [hs, Option.some.injEq] at hf
      rw [← hf, hc] at hcount
      exact nomatch hcount
    obtain ⟨f', hf', -, hfk, hfc⟩ := hnew hpid hf
    refine ⟨p, f', hparent.trans hpar, hf', ?_, ?_⟩
    · rw [hfc, List.count_filter (by simpa using hne), hcount]
    · rw [Node.admits_eq] at hadmits ⊢
      rwa [hfk, hk]
  case child =>
    intro p f' i hf' hi
    obtain ⟨-, f, hf, -, -, hfc⟩ := hold hf'
    rw [hfc, List.mem_filter, decide_eq_true_eq] at hi
    obtain ⟨e, he, hparent⟩ := h.child p f i hf hi.1
    obtain ⟨e', he', hparent', -⟩ := hnew hi.2 he
    exact ⟨e', he', hparent'.trans hparent⟩

end Query

end QueryRules
