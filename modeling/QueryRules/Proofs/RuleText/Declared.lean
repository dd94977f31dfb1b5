import QueryRules.Proofs.Json.RoundTrip
import QueryRules.Proofs.RuleText.Joined
import QueryRules.Proofs.Text.Lines

/-!
# The properties that a text declares

The lines of a rule and its blocks declare properties. `declarations` finds their keys without any
check, so it has a value for every text.

- `Json.readBraced_eq_ok`: within one block the later of two members with one key counts.
- `Declared.step`: what one line declares. What has been declared twice stays so
  (`Declared.Repeats.step`).
- `Reader.Declares`: what has been read has the properties that were declared, each by one line or
  block. `Reader.ends_step`: a line that is read keeps this, and a line that is refused for a
  repeated key repeats it.
- `ends_readDrafts_declares`: the same for whole texts. By induction over the lines, with what the
  lines so far declare beside what has been read of them.
- `readDrafts_repeated_key`: so a text in which two lines or blocks of a rule declare the same key is
  refused, and only such a text is refused for a repeated key.
-/

namespace QueryRules

open QueryRules.Text

/-! ## Members as written -/

namespace Json

/-- The members that stand in a text before a closing brace, in the order of the text. -/
def writtenMembers (cs : List Char) : List (String × Json) :=
  match scanMembers (skip cs) with
  | .ok (members, _) => members
  | .error _ => []

theorem writtenMembers_eq {cs rest : List Char} {members : List (String × Json)}
    (h : Reads (scanMembers (skip cs)) members rest) : writtenMembers cs = members := by
  obtain ⟨_, h⟩ := h
  simp only [writtenMembers, h]

/-- What begins with a brace is an object. -/
theorem reads_scan_brace {cs rest : List Char} {v : Json} (h : Reads (scan ('{' :: cs)) v rest) :
    v = .object (Dictionary.ofList (writtenMembers cs)) := by
  rw [scan, reads_weaken_iff, reads_map_iff] at h
  obtain ⟨members, hmembers, rfl⟩ := h
  rw [writtenMembers_eq hmembers]

/-- An object has the members as written, and the later of two with one key counts. -/
theorem readBraced_eq_ok {cs : List Char} {members : Dictionary Json}
    (h : readBraced cs = .ok members) : members = Dictionary.ofList (writtenMembers cs) := by
  have hobject {v : Json} (hv : read ('{' :: cs) = .ok v) :
      v = .object (Dictionary.ofList (writtenMembers cs)) := by
    obtain ⟨rest, hread, -⟩ := read_eq_ok_iff.1 hv
    rw [skip_of_stopsAt (stopsAt_cons.2 rfl)] at hread
    exact reads_scan_brace hread
  unfold readBraced at h
  split at h
  · rename_i hread
    rw [← Except.ok.inj h]
    exact Json.object.inj (hobject hread)
  · rename_i hne hread
    exact absurd (hobject hread) (hne _)
  · exact nomatch h

end Json

namespace RuleText

/-! ## What lines declare -/

/-- The key of a property line, which stands behind its at sign. -/
def lineKeys (cs : List Char) : List String :=
  match cutAt? ':' cs with
  | some (key, _) => [String.ofList (trimBy isQuote (trim key))]
  | none => []

/-- The keys of a block, in the order of its text. A text that is no list of members has none. -/
def blockKeys (text : List Char) : List String :=
  (Json.writtenMembers (text ++ ['}'])).map Prod.fst

/-- What lines declare: for each rule, the latest first, the keys of each of its property lines and
blocks; and the text of the open block if there is one. -/
structure Declared where
  rules : List (List (List String)) := []
  block : Option (List Char) := none

namespace Declared

/-- The keys declared for the latest rule. -/
def add (keys : List String) : List (List (List String)) → List (List (List String))
  | [] => []
  | declared :: rules => (declared ++ [keys]) :: rules

/-- One more line of a block. -/
def stepBlock (text : List Char) (rules : List (List (List String))) (line : List Char) :
    Declared :=
  let (content, closed) := cutBlockLine line
  let text := text ++ content ++ ['\n']
  if closed then { rules := add (blockKeys text) rules } else { rules, block := some text }

/-- A line under a rule: only blocks and property lines declare something. -/
def stepRule (rules : List (List (List String))) (line : List Char) : Declared :=
  match line with
  | '@' :: '{' :: rest => stepBlock [] rules rest
  | '@' :: rest => { rules := add (lineKeys rest) rules }
  | _ => { rules }

/-- One more line. -/
def step (d : Declared) (line : List Char) : Declared :=
  match d.block with
  | some text => stepBlock text d.rules (trim line)
  | none =>
    if (trim line).head? = some '#' then d
    else if ['=', '>'] <:+ trim line then { rules := [] :: d.rules }
    else stepRule d.rules (trim line)

end Declared

/-- For each rule of a text the keys of each of its property lines and blocks. -/
def declarations (text : String) : List (List (List String)) :=
  ((lines text.toList).foldl Declared.step {}).rules.reverse

example : declarations "a =>\n@_id: 7\n@\x7b\n'n': 1, m: 2,\n\x7d@\nUP: b\nc =>" =
    [[["_id"], ["n", "m"]], []] := by decide +kernel

/-- How many of the lines and blocks of a rule declare the key. -/
def timesDeclared (key : String) (declared : List (List String)) : Nat :=
  declared.countP (key ∈ ·)

theorem timesDeclared_concat (key : String) (declared : List (List String)) (keys : List String) :
    timesDeclared key (declared ++ [keys]) =
      timesDeclared key declared + if key ∈ keys then 1 else 0 := by
  simp [timesDeclared, List.countP_append, List.countP_singleton]

namespace Declared

/-- Some rule declares the key more than once. -/
def Repeats (d : Declared) (key : String) : Prop :=
  ∃ declared ∈ d.rules, 1 < timesDeclared key declared

/-- One line begins a rule, adds to the latest one or leaves the rules as they are. -/
theorem rules_step (d : Declared) (line : List Char) :
    (d.step line).rules = d.rules ∨ (d.step line).rules = [] :: d.rules ∨
      ∃ keys, (d.step line).rules = add keys d.rules := by
  have hblock (text : List Char) (line : List Char) :
      (stepBlock text d.rules line).rules = d.rules ∨
        ∃ keys, (stepBlock text d.rules line).rules = add keys d.rules := by
    unfold stepBlock
    split
    dsimp only
    split
    · exact .inr ⟨_, rfl⟩
    · exact .inl rfl
  unfold step
  split
  · exact (hblock _ _).imp_right .inr
  · split
    · exact .inl rfl
    · split
      · exact .inr (.inl rfl)
      · unfold stepRule
        split
        · exact (hblock _ _).imp_right .inr
        · exact .inr (.inr ⟨_, rfl⟩)
        · exact .inl rfl

/-- What has been declared twice stays so. -/
theorem Repeats.step {d : Declared} {key : String} (h : d.Repeats key) (line : List Char) :
    (d.step line).Repeats key := by
  obtain ⟨declared, hmem, hkey⟩ := h
  unfold Repeats
  rcases rules_step d line with hrules | hrules | ⟨keys, hrules⟩
  · rw [hrules]
    exact ⟨declared, hmem, hkey⟩
  · rw [hrules]
    exact ⟨declared, List.mem_cons_of_mem _ hmem, hkey⟩
  · rw [hrules]
    obtain ⟨latest, rules, hd⟩ := List.exists_cons_of_ne_nil (List.ne_nil_of_mem hmem)
    rw [hd] at hmem ⊢
    rcases List.mem_cons.1 hmem with rfl | hmem
    · refine ⟨declared ++ [keys], List.mem_cons_self, ?_⟩
      rw [timesDeclared_concat]
      exact Nat.lt_add_right _ hkey
    · exact ⟨declared, List.mem_cons_of_mem _ hmem, hkey⟩

/-- If the fault is a repeated key, the key is repeated. -/
def Explains (d : Declared) (e : RuleError) : Prop :=
  ∀ key, e.fault = .duplicateProperty key → d.Repeats key

end Declared

/-! ## Drafts and declared keys -/

/-- A draft has the properties that one line or block of its rule declares, and none is declared
more than once. -/
def Draft.Declares (draft : Draft) (declared : List (List String)) : Prop :=
  ∀ key, timesDeclared key declared = if Dictionary.hasKey draft.properties key then 1 else 0

/-- Properties that can be added have new keys. -/
theorem addProperties_eq_ok {n : Nat} {draft draft' : Draft} {properties : List (String × Json)}
    (h : properties.foldlM (addProperty n) draft = .ok draft') :
    (∀ key ∈ properties.map Prod.fst, ¬ Dictionary.hasKey draft.properties key) ∧
      ∀ key, Dictionary.hasKey draft'.properties key ↔
        Dictionary.hasKey draft.properties key ∨ key ∈ properties.map Prod.fst := by
  induction properties generalizing draft with
  | nil => exact ⟨nofun, fun key => by simp [← Except.ok.inj h]⟩
  | cons property properties ih =>
    obtain ⟨next, hadd, h⟩ := bind_eq_ok_iff.1 h
    obtain ⟨hnew, hkeys⟩ := ih h
    obtain ⟨hkey, rfl⟩ := addProperty_eq_ok_iff.1 hadd
    simp only [Dictionary.hasKey_insert] at hnew hkeys
    refine ⟨List.forall_mem_cons.2 ⟨hkey, fun key hmem hold => ?_⟩, fun key => ?_⟩
    · exact hnew key hmem (.inr hold)
    · rw [hkeys, List.map_cons, List.mem_cons, or_assoc]
      exact or_left_comm

/-- Properties with different keys that cannot all be added have a key that is there already. -/
theorem addProperties_eq_error {n : Nat} {draft : Draft} {properties : List (String × Json)}
    {e : RuleError} (hnodup : (properties.map Prod.fst).Nodup)
    (h : properties.foldlM (addProperty n) draft = .error e) :
    ∃ key ∈ properties.map Prod.fst, Dictionary.hasKey draft.properties key ∧
      e = ⟨some n, .duplicateProperty key⟩ := by
  induction properties generalizing draft with
  | nil => exact nomatch h
  | cons property properties ih =>
    obtain ⟨hfirst, hnodup⟩ := List.nodup_cons.1 hnodup
    rw [List.foldlM_cons] at h
    by_cases hkey : Dictionary.hasKey draft.properties property.1
    · rw [addProperty, if_pos hkey] at h
      exact ⟨property.1, List.mem_cons_self, hkey, (Except.error.inj h).symm⟩
    · rw [addProperty, if_neg hkey] at h
      obtain ⟨key, hmem, hold, rfl⟩ := ih hnodup h
      refine ⟨key, List.mem_cons_of_mem _ hmem, ?_, rfl⟩
      rcases Dictionary.hasKey_insert.1 hold with rfl | hold
      · exact absurd hmem hfirst
      · exact hold

/-- The properties of one more line or block go to the draft, or one of their keys is repeated. -/
theorem Draft.Declares.addProperties {draft : Draft} {declared : List (List String)}
    (h : draft.Declares declared) {properties : List (String × Json)} {keys : List String}
    (hnodup : (properties.map Prod.fst).Nodup)
    (hread : ∀ key, key ∈ properties.map Prod.fst ↔ key ∈ keys) (n : Nat) :
    Ends (properties.foldlM (addProperty n) draft) (fun d => d.Declares (declared ++ [keys]))
      (fun e => ∀ key, e.fault = .duplicateProperty key →
        1 < timesDeclared key (declared ++ [keys])) := by
  cases hadd : properties.foldlM (addProperty n) draft with
  | ok draft' =>
    obtain ⟨hnew, hkeys⟩ := addProperties_eq_ok hadd
    intro key
    rw [timesDeclared_concat, h key]
    by_cases hmem : key ∈ keys
    · have hold := hnew key ((hread key).2 hmem)
      have hhas := (hkeys key).2 (.inr ((hread key).2 hmem))
      rw [if_neg hold, if_pos hmem, if_pos hhas]
    · have hhas : Dictionary.hasKey draft'.properties key ↔
          Dictionary.hasKey draft.properties key := by
        rw [hkeys, hread, or_iff_left hmem]
      rw [if_neg hmem, Nat.add_zero]
      simp only [hhas]
  | error e =>
    obtain ⟨key, hmem, hold, rfl⟩ := addProperties_eq_error hnodup hadd
    rintro _ ⟨⟩
    rw [timesDeclared_concat, h key, if_pos hold, if_pos ((hread key).1 hmem)]
    exact Nat.one_lt_two

namespace Reader

/-- What has been read is what was declared. -/
structure Declares (r : Reader) (d : Declared) : Prop where
  drafts : List.Forall₂ Draft.Declares r.drafts d.rules
  block : r.block.map OpenBlock.text = d.block

variable {config : Config} {n : Nat} {drafts : List Draft} {rules : List (List (List String))}

theorem ends_addProperties {draft : Draft} {declared : List (List String)}
    (hdraft : draft.Declares declared) (hdrafts : List.Forall₂ Draft.Declares drafts rules)
    {properties : List (String × Json)} {keys : List String}
    (hnodup : (properties.map Prod.fst).Nodup)
    (hread : ∀ key, key ∈ properties.map Prod.fst ↔ key ∈ keys) :
    Ends (do
        let draft ← properties.foldlM (addProperty n) draft
        return ({ drafts := draft :: drafts } : Reader))
      (fun r => r.Declares { rules := Declared.add keys (declared :: rules) })
      (Declared.Explains { rules := Declared.add keys (declared :: rules) }) := by
  refine ((hdraft.addProperties hnodup hread n).imp (fun _ h => h) fun e he key hkey => ?_).bind
    fun draft' hdraft' => ?_
  · exact ⟨_, List.mem_cons_self, he key hkey⟩
  · exact ⟨.cons hdraft' hdrafts, rfl⟩

theorem ends_closeBlock (opened : OpenBlock) (h : List.Forall₂ Draft.Declares drafts rules) :
    Ends (closeBlock opened drafts)
      (fun r => r.Declares { rules := Declared.add (blockKeys opened.text) rules })
      (Declared.Explains { rules := Declared.add (blockKeys opened.text) rules }) := by
  cases h with
  | nil => exact nofun
  | cons hdraft hdrafts =>
    refine (Ends.mapError (fun _ => id) fun _ => nofun).bind fun properties hread => ?_
    have hproperties := Json.readBraced_eq_ok hread
    refine ends_addProperties hdraft hdrafts ?_ fun key => ?_
    · rw [hproperties]
      exact (Dictionary.ascending_ofList _).nodup
    · rw [← Dictionary.hasKey_iff_mem, hproperties]
      exact Dictionary.hasKey_ofList

theorem ends_stepBlock (opened : OpenBlock) (h : List.Forall₂ Draft.Declares drafts rules)
    (line : List Char) :
    Ends (stepBlock opened drafts line)
      (fun r => r.Declares (Declared.stepBlock opened.text rules line))
      (Declared.stepBlock opened.text rules line).Explains := by
  unfold stepBlock Declared.stepBlock
  generalize cutBlockLine line = cut
  obtain ⟨content, closed⟩ := cut
  cases closed with
  | true => exact ends_closeBlock _ h
  | false => exact ⟨h, rfl⟩

theorem lineKeys_of_readProperty {cs : List Char} {property : String × Json}
    (h : readProperty cs = .ok property) : lineKeys cs = [property.1] := by
  unfold readProperty at h
  unfold lineKeys
  split at h
  · exact nomatch h
  · rename_i key value hcut
    dsimp only at h
    split at h
    · exact nomatch h
    · split at h
      · exact nomatch h
      · split at h <;> rw [hcut, ← Except.ok.inj h]

theorem ends_stepRule {draft : Draft} (h : List.Forall₂ Draft.Declares (draft :: drafts) rules)
    (line : List Char) :
    Ends (stepRule config n line draft drafts)
      (fun r => r.Declares (Declared.stepRule rules line))
      (Declared.stepRule rules line).Explains := by
  unfold stepRule
  split
  · have hblock := ends_stepBlock ⟨n, []⟩ h
    rw [Declared.stepRule]
    exact hblock _
  · rename_i hbrace
    rw [Declared.stepRule.eq_2 _ _ hbrace]
    cases h with
    | cons hdraft hdrafts =>
      refine (Ends.mapError (fun _ => id) (by rintro fault key ⟨⟩)).bind fun property hread => ?_
      have hkeys := lineKeys_of_readProperty hread
      have hone : [property].foldlM (addProperty n) draft = addProperty n draft property := by simp
      rw [hkeys, ← hone]
      exact ends_addProperties hdraft hdrafts (List.pairwise_singleton _ _) fun _ => .rfl
  · rename_i hblock hat
    rw [Declared.stepRule.eq_3 _ _ hblock hat]
    cases h with
    | cons hdraft hdrafts =>
      refine Ends.bind (P := fun _ => True) ?_ fun instruction _ => ⟨.cons hdraft hdrafts, rfl⟩
      cases hread : readInstruction config n line with
      | ok instruction => trivial
      | error e => rcases readInstruction_eq_error hread with rfl | ⟨name, rfl⟩ <;> rintro key ⟨⟩

theorem ends_stepLine (h : List.Forall₂ Draft.Declares drafts rules) (line : List Char) :
    Ends (stepLine config n (trim line) drafts)
      (fun r => r.Declares (Declared.step { rules } line))
      (Declared.step { rules } line).Explains := by
  unfold stepLine Declared.step
  dsimp only
  split
  · rename_i hblank
    have hnone : Declared.stepRule rules [] = { rules } := rfl
    rcases hblank with hblank | hcomment
    -- `Declared.step` has no case for a blank line: it is a line under a rule without an at sign
    · simpa [hblank, hnone, Ends] using ⟨h, rfl⟩
    · rw [if_pos hcomment]
      exact ⟨h, rfl⟩
  · rename_i hblank
    rw [if_neg (not_or.1 hblank).2]
    split
    · rename_i input hinput
      have hsuffix : ['=', '>'] <:+ trim line :=
        ⟨input, List.isSuffixOf?_eq_some_iff_append_eq.1 hinput⟩
      rw [if_pos hsuffix]
      split
      · exact nofun
      · exact ⟨.cons (fun _ => rfl) h, rfl⟩
    · rename_i hinput
      rw [if_neg (isSuffixOf?_eq_none_iff.1 hinput)]
      cases h with
      | nil => exact nofun
      | cons hdraft hdrafts => exact ends_stepRule (.cons hdraft hdrafts) _

/-- One more line keeps what was read and what was declared together, or a fault that names a
repeated key is right. -/
theorem ends_step {r : Reader} {d : Declared} (h : r.Declares d) (line : List Char × Nat) :
    Ends (step config r line) (fun r' => r'.Declares (d.step line.1)) (d.step line.1).Explains := by
  obtain ⟨drafts, block⟩ := r
  obtain ⟨rules, text⟩ := d
  obtain ⟨hdrafts, hblock⟩ := h
  obtain rfl : block.map OpenBlock.text = text := hblock
  cases block with
  | none => exact ends_stepLine hdrafts _
  | some opened => exact ends_stepBlock opened hdrafts _

end Reader

/-! ## Whole texts -/

/-- The drafts of a text have the properties that it declares, once each. If the text has no drafts
because of a repeated key, it declares that key more than once. -/
theorem ends_readDrafts_declares (config : Config) (text : String) :
    Ends (readDrafts config text)
      (fun drafts => List.Forall₂ Draft.Declares drafts (declarations text))
      (fun e => ∀ key, e.fault = .duplicateProperty key →
        ∃ declared ∈ declarations text, 1 < timesDeclared key declared) := by
  have hstart : Reader.Declares {} {} := ⟨.nil, rfl⟩
  have hrun : Ends (((lines text.toList).zipIdx 1).foldlM (Reader.step config) {})
      (fun r => r.Declares (((lines text.toList).zipIdx 1).foldl (fun d line => d.step line.1) {}))
      (Declared.Explains (((lines text.toList).zipIdx 1).foldl (fun d line => d.step line.1) {})) :=
    Ends.foldlM_foldl hstart (fun _ _ line h => Reader.ends_step h line)
      fun _ line _ he key hkey => (he key hkey).step line.1
  rw [← List.foldl_map, List.zipIdx_map_fst] at hrun
  refine (hrun.imp (fun _ h => h) fun e he key hkey => ?_).bind fun r hr => ?_
  · obtain ⟨declared, hmem, hrepeated⟩ := he key hkey
    exact ⟨declared, List.mem_reverse.2 hmem, hrepeated⟩
  · split
    · exact nofun
    · exact List.rel_reverse hr.drafts

/-- A text in which two lines or blocks of one rule declare the same key is refused, and no text is
refused for a repeated key unless that is so. -/
theorem readDrafts_repeated_key (config : Config) (text key : String) :
    ((∃ declared ∈ declarations text, 1 < timesDeclared key declared) →
      ∃ e, readDrafts config text = .error e) ∧
    ∀ e, readDrafts config text = .error e → e.fault = .duplicateProperty key →
      ∃ declared ∈ declarations text, 1 < timesDeclared key declared := by
  have hends := ends_readDrafts_declares config text
  refine ⟨?_, fun e he => hends.of_error he key⟩
  rintro ⟨declared, hmem, hrepeated⟩
  cases hread : readDrafts config text with
  | error e => exact ⟨e, rfl⟩
  | ok drafts =>
    obtain ⟨draft, -, hdraft⟩ := exists_mem_of_forall₂ (hends.of_ok hread) hmem
    rw [hdraft key] at hrepeated
    split at hrepeated <;> omega

/-- A property line and a block behind it, with a rule in between that declares the key too. -/
theorem readDrafts_repeated_key_quoted :
    let text := "a =>\n@_id: 1\nb =>\n@'_id': 2\n@\x7b n: 1,\n\"\\u005fid\": 3 \x7d@"
    [["_id"], ["n", "_id"]] ∈ declarations text ∧
      1 < timesDeclared "_id" [["_id"], ["n", "_id"]] ∧
      ∃ e, readDrafts {} text = .error e := by
  intro text
  have hdeclared : [["_id"], ["n", "_id"]] ∈ declarations text := by decide +kernel
  have hrepeated : 1 < timesDeclared "_id" [["_id"], ["n", "_id"]] := by decide
  exact ⟨hdeclared, hrepeated, (readDrafts_repeated_key {} text "_id").1 ⟨_, hdeclared, hrepeated⟩⟩

/-- Within one block a key may be repeated, and the later value counts. -/
theorem readDrafts_repeated_in_block :
    let text := "a =>\n@\x7b k: 1, k: 2 \x7d@"
    [["k", "k"]] ∈ declarations text ∧ ¬ [["k", "k"]].flatten.Nodup ∧
      (readDrafts {} text).map (List.map fun d => d.properties.map fun m => (m.1, m.2.compact)) =
        .ok [[("k", "2")]] := by
  decide +kernel

end RuleText

end QueryRules
