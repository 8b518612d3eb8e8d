import QueryDoc.Proofs.Location.Interval

/-!
# The text of a node

The location of a node covers exactly its own text. The tokens of that text have
the kinds of the tokens the node was made from, for lexing does not depend on what
stands around, and these kinds derive the node, whatever the context it stood in.
So the text parses, on its own, as the node.
-/
namespace QueryDoc
open Grammar

/-- What the node is, is said by its text alone: a name is its text, and values,
types, definitions and selection sets are what a source with that text parses as.
A selection set is parsed as a document, the query that consists of it. -/
def Node.IsSaidBy (text : String) : Node (Option Location) → Prop
  | .name n => text = n.value
  | .value v => ∀ options source, source.body = text →
      ∃ w, Value.parse options source = .ok w ∧ w.map forget = v.map forget
  | .type t => ∀ options source, source.body = text →
      ∃ u, TypeRef.parse options source = .ok u ∧ u.map forget = t.map forget
  | .definition d => ∀ options source, source.body = text →
      ∃ e, Document.parse options source = .ok e ∧ e.map forget = ⟨[d.map forget], ()⟩
  | .selectionSet s => ∀ options source, source.body = text →
      ∃ e, Document.parse options source = .ok e ∧ e.map forget =
        ⟨[.operation ⟨none, .query, none, [], [], s.map forget, ()⟩], ()⟩
  | _ => True

/-! ## Parsing a text whose tokens derive a tree -/

section Derived
variable {options : ParseOptions} {source : Source} {kinds : List TokenKind}
  (hlex : Lexical.LexesTo source.body.toList kinds)
include hlex

theorem Value.parse_of_derived {v : Value Unit} (form : ValueForm false kinds v)
    (room : v.nesting ≤ maxDepth) :
    ∃ w, Value.parse options source = .ok w ∧ w.map forget = v := by
  obtain ⟨x, run, hx⟩ := (Parser.reads_wholeValue .anyValue form room).run source hlex.tokenize
  refine ⟨x.map (options.locate source), ?_, ?_⟩
  · rw [Value.parse, Value.ofTokens_eq, run]
    rfl
  · rw [Value.map_map, ← hx]

theorem TypeRef.parse_of_derived {t : TypeRef Unit} (form : TypeForm kinds t)
    (room : t.nesting ≤ maxDepth) :
    ∃ u, TypeRef.parse options source = .ok u ∧ u.map forget = t := by
  obtain ⟨x, run, hx⟩ := (Parser.reads_wholeType form room).run source hlex.tokenize
  refine ⟨x.map (options.locate source), ?_, ?_⟩
  · rw [TypeRef.parse, TypeRef.ofTokens_eq, run]
    rfl
  · rw [TypeRef.map_map, ← hx]

theorem Document.parse_of_derived {d : Document Unit} (form : DocumentForm kinds d)
    (room : d.nesting ≤ maxDepth) :
    ∃ e, Document.parse options source = .ok e ∧ e.map forget = d := by
  obtain ⟨x, run, hx⟩ := (Parser.reads_document form room).run source hlex.tokenize
  refine ⟨x.map (options.locate source), ?_, ?_⟩
  · rw [Document.parse, Document.ofTokens_eq, run]
    rfl
  · rw [Document.map_map, ← hx]

/-- A definition alone is a document. -/
theorem Document.parse_definition {d : Definition Unit} (form : DefinitionForm kinds d)
    (room : d.nesting ≤ maxDepth) :
    ∃ e, Document.parse options source = .ok e ∧ e.map forget = ⟨[d], ()⟩ := by
  have whole : DocumentForm kinds ⟨[d], ()⟩ := by
    refine .mk ?_ (List.cons_ne_nil d [])
    simpa only [List.append_nil] using Many.cons form .nil
  exact parse_of_derived hlex whole (by simpa [Document.nesting] using room)

end Derived

/-! ## Cutting the text of a node out -/

theorem Location.text_of_cut {source : Source} {pre mid post : List Char}
    (h : source.chars = pre ++ (mid ++ post)) :
    Location.text ⟨⟨.after pre, .after (pre ++ mid)⟩, source⟩ = String.ofList mid := by
  have length : byteLength (pre ++ mid) - byteLength pre = byteLength mid := by
    rw [byteLength_append]
    omega
  simp only [Location.text, Position.offset_after, h, dropBytes_append, length, takeBytes_append]
  rw [if_pos (by rw [byteLength_append]; omega)]
  rfl

/-- The text of a token that may serve as a name is that name. -/
theorem obeys_nameText {text rest : List Char} {k : TokenKind} {s : String}
    (h : Lexical.Obeys text rest k) (hk : k.nameText? = some s) : text = s.toList := by
  cases k with
  | name t =>
    obtain rfl := Option.some.inj hk
    exact h.1
  | boolean b => cases b <;> (obtain rfl := Option.some.inj hk; exact h.1)
  | null =>
    obtain rfl := Option.some.inj hk
    exact h.1
  | _ => cases hk

section Parsed
variable {source : Source} {ts rest : List Token}
  (htokens : tokenize source.body = ts ++ rest)
include htokens

/-- The text of a name is the name. -/
theorem name_text {pre mid post : List Char} {t : Token} {s : String} (ht : t ∈ ts)
    (hbody : source.body.toList = pre ++ (mid ++ post))
    (hspan : t.span = ⟨.after pre, .after (pre ++ mid)⟩) (hname : t.kind.nameText? = some s) :
    String.ofList mid = s := by
  have hend : t.kind ≠ .endOfInput := by
    intro hend
    rw [hend] at hname
    cases hname
  obtain ⟨-, text, after, hslice, -, obeys⟩ :=
    (Lexical.tokenize_tiles source.body).unit_spec t (htokens ▸ List.mem_append_left rest ht) hend
  rw [List.nil_append, hbody, hspan, Position.offset_after, Position.offset_after,
    Lexical.sliceBytes_append] at hslice
  obtain rfl := Option.some.inj hslice
  rw [obeys_nameText obeys hname, String.ofList_toList]

theorem covers_isSaidBy (proper : ∀ t ∈ ts, t.kind.isProper = true) {us : List Token}
    {n : Node Span} (hus : us <:+: ts) (h : Covers us n.toTree) :
    (n.map fun s => some ⟨s, source⟩).IsSaidBy (Location.text ⟨n.toTree.info, source⟩) := by
  have hne := ne_nil_of_startOf h.startOf_eq
  obtain ⟨pre, mid, post, hbody, htext, hlex⟩ := exists_text_of_infix htokens proper hus hne
  have hull := h.spreads.hull
  rw [htext] at hull
  have text : Location.text ⟨n.toTree.info, source⟩ = String.ofList mid := by
    rw [← Option.some.inj hull]
    exact Location.text_of_cut hbody
  obtain ⟨m, same, derives⟩ := h.derived
  obtain rfl := Node.toTree_injective same
  -- the text stands alone in any source, and its tokens are of the kinds that derive the node
  have alone : ∀ other : Source, other.body = Location.text ⟨m.toTree.info, source⟩ →
      Lexical.LexesTo other.body.toList (us.map Token.kind) := by
    intro other hother
    rw [hother, text, String.toList_ofList]
    exact hlex
  cases m with
  | name n =>
    rw [text]
    generalize hkinds : us.map Token.kind = kinds at derives
    cases derives with
    | mk hname =>
      obtain ⟨t, rfl, rfl⟩ := List.map_eq_singleton_iff.1 hkinds
      rw [hull_singleton] at htext
      exact name_text htokens (hus.subset List.mem_cons_self) hbody (Option.some.inj htext) hname
  | value v =>
    intro options other hother
    rw [Value.map_map]
    exact Value.parse_of_derived (alone other hother) derives.1 derives.2
  | type t =>
    intro options other hother
    rw [TypeRef.map_map]
    exact TypeRef.parse_of_derived (alone other hother) derives.1 derives.2
  | definition d =>
    intro options other hother
    rw [Definition.map_map]
    exact Document.parse_definition (alone other hother) derives.1 derives.2
  | selectionSet s =>
    intro options other hother
    rw [SelectionSet.map_map]
    have form : DefinitionForm (us.map Token.kind)
        (.operation ⟨none, .query, none, [], [], s.map forget, ()⟩) := .operation (.short derives.1)
    have room : Definition.nesting
        (.operation ⟨none, .query, none, [], [], s.map forget, ()⟩ : Definition Unit) ≤ maxDepth :=
      Nat.max_le.2 ⟨Nat.zero_le _, derives.2⟩
    exact Document.parse_definition (alone other hother) form room
  | _ => trivial

end Parsed

/-- **A location covers exactly the text of its node.** Any node of a located tree is
what the text at its location says: a name is that text, a value, a type or a
definition is what the text parses as, and a selection set is that of the query
that the text parses as. -/
theorem locations_cover_text {entry : Entry} {source : Source} {n : Node (Option Location)}
    (h : Node.parse entry .standard source = .ok n) :
    ∀ x ∈ n.toTree.nodes, ∃ m l, x.2.toNode? = some m ∧ x.2.info = some l ∧
      m.IsSaidBy l.text := by
  obtain ⟨m, ts, rest, rfl, htokens, proper, stands⟩ := exists_spans h
  have part : Part ts rest m.toTree := ⟨ts, m, List.infix_rfl, stands, rfl⟩
  rw [Node.toTree_map, Tree.nodes_map, List.forall_mem_map]
  intro x hx
  obtain ⟨us, k, hus, stands, hk⟩ := Tree.forall_walk (fun _ ht => ht.down) part [] x hx
  refine ⟨k.map fun s => some ⟨s, source⟩, ⟨x.2.info, source⟩, ?_, Tree.info_map _ _, ?_⟩
  · rw [← hk, ← Node.toTree_map, Node.toNode_toTree]
  · cases stands with
    | node covers =>
      rw [← hk]
      exact covers_isSaidBy htokens proper hus covers
    | document _ _ _ _ => trivial

/-- So it is with the query of one field, its selection set, its field and the name. -/
theorem fieldA_locations_cover_text :
    Node.parse .document .standard fieldA = .ok fieldANode ∧
      ∀ x ∈ fieldANode.toTree.nodes, ∃ m l, x.2.toNode? = some m ∧ x.2.info = some l ∧
        m.IsSaidBy l.text :=
  ⟨parse_fieldA, locations_cover_text parse_fieldA⟩

/-- The text of the name. -/
example : Location.text ⟨⟨⟨0, 1, 1, 1⟩, ⟨0, 2, 2, 2⟩⟩, fieldA⟩ = "a" := by decide

end QueryDoc
