import QueryRules.Proofs.Query.Frame

/-!
# Editing queries

- `Query.Built`: the queries that operations build. They are regular (`Built.regular`).
- `Query.edits`: a query after some operations, where an operation that fails changes nothing.
  `Regular.edit`: one operation keeps a query regular and brings back no node.
- `Query.edits_invariant`: so every query that can be reached is a tree of nodes numbered downwards,
  and what is removed stays removed.
-/

namespace QueryRules

namespace Query

/-! ## Queries that are built -/

/-- The queries that operations build. An operation that fails leaves a query as it is. -/
inductive Built : Query → Prop
  | empty : Built empty
  | ofTerms (terms : List (Occur × Term)) : Built (ofTerms terms)
  | addChild {q q' : Query} {parent id : Nat} {node : Node} (h : Built q)
    (ha : q.addChild parent node = .ok (q', id)) : Built q'
  | eraseTerm {q : Query} (h : Built q) (id : Nat) : Built (q.eraseTerm id)
  | requireAll {q : Query} (h : Built q) : Built q.requireAll
  | asGenerated {q : Query} (h : Built q) : Built q.asGenerated

theorem regular_empty : empty.Regular := by
  have hlookup (id : Nat) : empty.lookup? id =
      if id = root then some ⟨none, .boolean .should false []⟩ else none := by
    cases id <;> rfl
  constructor
  · constructor
    case root => exact ⟨_, hlookup root, rfl, rfl⟩
    case listed =>
      intro id e hid he
      rw [hlookup, if_neg hid] at he
      exact nomatch he
    case child =>
      intro p f id hf hid
      rw [hlookup] at hf
      split at hf
      · obtain rfl := Option.some.inj hf
        exact nomatch hid
      · exact nomatch hf
  · intro id e p he hp
    rw [hlookup] at he
    split at he
    · obtain rfl := Option.some.inj he
      exact nomatch hp
    · exact nomatch he

theorem Regular.pushTerm {q : Query} (h : q.Regular) (occur : Occur) (t : Term) :
    (q.pushTerm occur t).Regular := by
  obtain ⟨n, hn, hk⟩ := h.wellFormed.hasKind_root
  have hadmits : n.admits (.group occur false []) := by rw [Node.admits_eq, hk]; rfl
  have hgroup := h.attach hn hadmits rfl
  exact hgroup.attach (q.node?_attach_self root _) rfl rfl

theorem regular_ofTerms (terms : List (Occur × Term)) : (ofTerms terms).Regular := by
  have hfold (terms : List (Occur × Term)) {q : Query} (h : q.Regular) :
      (terms.foldl (fun q t => q.pushTerm t.1 t.2) q).Regular := by
    induction terms generalizing q with
    | nil => exact h
    | cons t terms ih => exact ih (h.pushTerm t.1 t.2)
  exact hfold terms regular_empty

theorem Regular.eraseTerm {q : Query} (h : q.Regular) (id : Nat) : (q.eraseTerm id).Regular :=
  (h.wellFormed.framed_eraseTerm id).1.regular h

/-- A node that can be added is attached. -/
theorem attach_of_addChild {q : Query} {parent : Nat} {node : Node} {r : Query × Nat}
    (ha : q.addChild parent node = .ok r) :
    (∃ p, q.node? parent = some p ∧ p.admits node ∧ node.children = []) ∧
      q.attach parent node = r := by
  unfold Query.addChild at ha
  split at ha
  · exact nomatch ha
  · rename_i hc
    split at ha
    · exact nomatch ha
    · rename_i p hp
      split at ha
      · rename_i hadmits
        exact ⟨⟨p, hp, hadmits, not_not.1 hc⟩, Except.ok.inj ha⟩
      · exact nomatch ha

/-- A node of a kind that the parent admits is attached. -/
theorem addChild_eq_attach {q : Query} {parent : Nat} {k : NodeKind} {node : Node}
    (hp : q.HasKind parent k) (ha : k.admits node.kind) (hc : node.children = []) :
    q.addChild parent node = .ok (q.attach parent node) := by
  obtain ⟨p, hp, rfl⟩ := hp
  rw [← Node.admits_eq] at ha
  rw [Query.addChild, if_neg (not_not.2 hc), hp]
  exact if_pos ha

theorem Regular.addChild {q : Query} (h : q.Regular) {parent : Nat} {node : Node}
    {r : Query × Nat} (ha : q.addChild parent node = .ok r) : r.1.Regular := by
  obtain ⟨⟨p, hp, hadmits, hc⟩, rfl⟩ := attach_of_addChild ha
  exact h.attach hp hadmits hc

/-- Every query that operations build is regular. -/
theorem Built.regular {q : Query} (h : q.Built) : q.Regular := by
  induction h with
  | empty => exact regular_empty
  | ofTerms terms => exact regular_ofTerms terms
  | addChild _ ha ih => exact ih.addChild ha
  | eraseTerm _ id ih => exact ih.eraseTerm id
  | requireAll _ ih => exact ih.congr (sameShape_requireAll _)
  | asGenerated _ ih => exact ih.congr (sameShape_asGenerated _)

/-! ## Operations one after the other -/

end Query

/-- An operation on a query. -/
inductive Edit where
  | addGroup (parent : Nat) (occur : Occur) (generated : Bool)
  | addNested (parent : Nat) (occur : Occur) (generated : Bool)
  | addTerm (parent : Nat) (term : Term)
  | addChild (parent : Nat) (node : Node)
  | eraseTerm (id : Nat)
  | requireAll
  | asGenerated
  deriving DecidableEq, Repr

namespace Query

/-- The query after a node has been added, or as it was if the node cannot be added. -/
def orAsItWas (q : Query) : Except AddFault (Query × Nat) → Query
  | .ok (q', _) => q'
  | .error _ => q

/-- The query after an operation. An operation that fails leaves it as it is. -/
def edit (q : Query) : Edit → Query
  | .addGroup parent occur generated => q.orAsItWas (q.addGroup parent occur generated)
  | .addNested parent occur generated => q.orAsItWas (q.addNested parent occur generated)
  | .addTerm parent term => q.orAsItWas (q.addTerm parent term)
  | .addChild parent node => q.orAsItWas (q.addChild parent node)
  | .eraseTerm id => q.eraseTerm id
  | .requireAll => q.requireAll
  | .asGenerated => q.asGenerated

/-- The query after some operations. -/
def edits (q : Query) (es : List Edit) : Query := es.foldl edit q

theorem edits_append (q : Query) (es es' : List Edit) :
    q.edits (es ++ es') = (q.edits es).edits es' :=
  List.foldl_append

theorem SameShape.later {q q' : Query} (h : q.SameShape q')
    (hlen : q.entries.length ≤ q'.entries.length) : q.Later q' where
  length_le := hlen
  gone id _ hid := by
    have hshape := h id
    rw [hid] at hshape
    exact Option.map_eq_none_iff.1 hshape

theorem length_requireAll (q : Query) : q.requireAll.entries.length = q.entries.length := by
  have hfold (ids : List Nat) (q : Query) :
      (ids.foldl (fun q id => q.modify id Node.require) q).entries.length = q.entries.length := by
    induction ids generalizing q with
    | nil => rfl
    | cons id ids ih => rw [List.foldl_cons, ih, length_modify]
  exact hfold _ q

theorem length_asGenerated (q : Query) : q.asGenerated.entries.length = q.entries.length :=
  List.length_map _

/-- Adding a node keeps a query regular and brings back no node, whether it fails or not. -/
theorem Regular.orAsItWas {q : Query} (h : q.Regular) (parent : Nat) (node : Node) :
    (q.orAsItWas (q.addChild parent node)).Regular ∧
      q.Later (q.orAsItWas (q.addChild parent node)) := by
  cases ha : q.addChild parent node with
  | error fault => exact ⟨h, .refl q⟩
  | ok r =>
    refine ⟨h.addChild ha, ?_⟩
    obtain ⟨-, rfl⟩ := attach_of_addChild ha
    exact q.later_attach parent node

/-- An operation keeps a query regular and brings back no node. -/
theorem Regular.edit {q : Query} (h : q.Regular) (e : Edit) :
    (q.edit e).Regular ∧ q.Later (q.edit e) := by
  cases e with
  | addGroup parent occur generated => exact h.orAsItWas parent _
  | addNested parent occur generated => exact h.orAsItWas parent _
  | addTerm parent term => exact h.orAsItWas parent _
  | addChild parent node => exact h.orAsItWas parent node
  | eraseTerm id => exact ⟨h.eraseTerm id, (h.wellFormed.framed_eraseTerm id).1.toLater⟩
  | requireAll =>
    have hs := q.sameShape_requireAll
    exact ⟨h.congr hs, hs.later (Nat.le_of_eq q.length_requireAll.symm)⟩
  | asGenerated =>
    have hs := q.sameShape_asGenerated
    exact ⟨h.congr hs, hs.later (Nat.le_of_eq q.length_asGenerated.symm)⟩

/-- So do operations one after the other. -/
theorem Regular.edits {q : Query} (h : q.Regular) (es : List Edit) :
    (q.edits es).Regular ∧ q.Later (q.edits es) := by
  unfold Query.edits
  induction es generalizing q with
  | nil => exact ⟨h, .refl q⟩
  | cons e es ih =>
    obtain ⟨hregular, hlater⟩ := h.edit e
    obtain ⟨hregular', hlater'⟩ := ih hregular
    exact ⟨hregular', hlater.trans hlater'⟩

/-- Only the parent of a node has it among its children. -/
theorem WellFormed.eq_of_mem_children {q : Query} (h : q.WellFormed) {p id : Nat} {e : Entry}
    (he : q.lookup? id = some e) (hp : e.parent = some p) {p' : Nat} (hid : id ∈ q.children p') :
    p' = p := by
  obtain ⟨f, hf, hm⟩ := mem_children.1 hid
  obtain ⟨c, hc, hparent⟩ := h.child p' f id hf hm
  obtain rfl := Option.some.inj (he.symm.trans hc)
  exact Option.some.inj (hparent.symm.trans hp)

/-- A query after any operations, from one without clauses or one of single terms. The root is a
boolean query without a parent. Every other node has a parent with a smaller number, which admits it
and lists it once, and no other node lists it. Whatever is listed is there; a number that has not
been given away, or behind which a node was removed, is listed nowhere. A node that further
operations remove is not brought back by those after them. -/
theorem edits_invariant (start : List (Occur × Term)) (es : List Edit) :
    let q := (ofTerms start).edits es
    (∃ e, q.lookup? root = some e ∧ e.parent = none ∧ e.node.kind = .boolean) ∧
    (∀ id e, id ≠ root → q.lookup? id = some e → ∃ p f, e.parent = some p ∧ p < id ∧
      q.lookup? p = some f ∧ f.node.admits e.node ∧ f.node.children.count id = 1 ∧
      ∀ p', id ∈ q.children p' → p' = p) ∧
    (∀ p id, id ∈ q.children p → q.isLive id) ∧
    (∀ id, q.entries.length ≤ id ∨ q.isLive id = false → ∀ p, id ∉ q.children p) ∧
    ∀ es' es'' id, q.isLive id → (q.edits es').isLive id = false →
      (q.edits (es' ++ es'')).isLive id = false := by
  intro q
  obtain ⟨hregular, -⟩ := (regular_ofTerms start).edits es
  have hw := hregular.wellFormed
  have hlive (p id : Nat) (hid : id ∈ q.children p) : q.isLive id := by
    obtain ⟨f, hf, hm⟩ := mem_children.1 hid
    exact hw.isLive_of_mem hf hm
  refine ⟨hw.root, fun id e hid he => ?_, hlive, fun id hid p hm => ?_, ?_⟩
  · obtain ⟨p, f, hp, hf, hcount, hadmits⟩ := hw.listed id e hid he
    exact ⟨p, f, hp, hregular.parent_lt id e p he hp, hf, hadmits, hcount,
      fun p' hm => hw.eq_of_mem_children he hp hm⟩
  · have hl := hlive p id hm
    rcases hid with hid | hid
    · exact absurd (lt_length_of_isLive hl) (Nat.not_lt.2 hid)
    · rw [hid] at hl
      exact nomatch hl
  · intro es' es'' id hl hdead
    obtain ⟨hregular', hlater'⟩ := hregular.edits es'
    obtain ⟨-, hlater''⟩ := hregular'.edits es''
    have hissued := Nat.lt_of_lt_of_le (lt_length_of_isLive hl) hlater'.length_le
    rw [edits_append, isLive_eq_false_iff]
    exact hlater''.gone id hissued (isLive_eq_false_iff.1 hdead)

end Query

end QueryRules
