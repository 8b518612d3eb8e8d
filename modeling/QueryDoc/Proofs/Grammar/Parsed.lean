import QueryDoc.Proofs.Grammar.Acceptance
import QueryDoc.Proofs.Grammar.Spelling
import QueryDoc.Proofs.Lexical.Spacing
import QueryDoc.Proofs.Location.Entry
import QueryDoc.Proofs.Print.Map

/-!
# Trees that the parser returns

Whatever is parsed, a tree that is returned can be relied on: its names and numbers
are spelt by the lexical rules, what may not be empty is not, the text of a block
string is cut to its normal form, and nothing nests deeper than the limit. The lexer
answers for the spelling, the decoder of literals for the strings, the productions
for the rest. What nodes carry has no part in it.
-/
namespace QueryDoc
open Lexical Grammar

/-! ## What the lexer and the decoder give -/

/-- Lexing ends with the end of input, and names and numbers obey their rules. -/
theorem tokenize_kinds (body : String) : ∃ kinds,
    (tokenize body).map Token.kind = kinds ++ [.endOfInput] ∧ .endOfInput ∉ kinds ∧
      AllSpelt kinds := by
  have htiles : Tiles [] body.toList (tokenize body) := listFrom_tiles .start [] body.toList rfl
  obtain ⟨units, p, htokens, -, hunits⟩ := htiles.ending
  refine ⟨units.map Token.kind, by simp [htokens], ?_, fun k hk => ?_⟩
  · intro hmem
    obtain ⟨t, ht, hkind⟩ := List.mem_map.1 hmem
    exact hunits t ht hkind
  · obtain ⟨t, ht, rfl⟩ := List.mem_map.1 hk
    obtain ⟨-, text, rest, -, -, hobeys⟩ :=
      htiles.unit_spec t (by simp [htokens, ht]) (hunits t ht)
    cases hkind : t.kind with
    | name s =>
      rw [hkind] at hobeys
      obtain ⟨rfl, hname, hliteral, -⟩ := hobeys
      exact ⟨hname, hliteral⟩
    | int s =>
      rw [hkind] at hobeys
      obtain ⟨rfl, hint, -⟩ := hobeys
      exact hint
    | float s =>
      rw [hkind] at hobeys
      obtain ⟨rfl, hfloat, -⟩ := hobeys
      exact hfloat
    | _ => trivial

theorem Grammar.StringForm.isLaidOut {ts : List TokenKind} {s : StringValue Unit}
    (h : StringForm ts s) (hb : s.block = true) : StringLiteral.IsLaidOut s.value.toList := by
  obtain ⟨hdecode⟩ := h
  rename_i raw cs
  rw [String.toList_ofList]
  unfold StringLiteral.decode at hdecode
  split at hdecode
  · split at hdecode
    · rw [← Except.ok.inj hdecode]
      exact StringLiteral.isLaidOut_dedent _
    · cases hdecode
  · rename_i hnot hraw
    obtain ⟨more, hmore⟩ := List.isPrefixOf_iff_prefix.1 hb
    rw [hraw] at hmore
    exact absurd (List.cons.inj hmore).2.symm (hnot more)
  · cases hdecode

/-! ## What the parser gives -/

variable {α β : Type}

/-- What holds of every tree that the parser returns. -/
@[mk_iff]
structure Node.IsSound (n : Node α) : Prop where
  wellFormed : n.WellFormed
  nesting : n.nesting ≤ maxDepth
  /-- A block string is empty, or has no carriage return and no blank line at its ends. -/
  blocks : ∀ p ∈ n.strings, p.2.block = true → p.2.value.toList = [] ∨
    '\r' ∉ p.2.value.toList ∧ StringLiteral.HasSolidEnds p.2.value.toList

theorem Node.isSound_map (f : α → β) (n : Node α) : (n.map f).IsSound ↔ n.IsSound := by
  simp only [Node.isSound_iff, n.wellFormed_map, n.nesting_map, n.strings_map, List.forall_mem_map]
  exact Iff.rfl

theorem Node.isSound_of_literals {n : Node Unit} (wellFormed : n.WellFormed)
    (nesting : n.nesting ≤ maxDepth) (literals : FromLiterals n.strings) : n.IsSound := by
  refine ⟨wellFormed, nesting, fun p hp hb => ?_⟩
  obtain ⟨ts, hform⟩ := literals p hp
  exact StringLiteral.isLaidOut_iff.1 (hform.isLaidOut hb)

namespace Parser

variable {c c' : Cursor}

theorem wholeValue_sound {context : ValueContext} {v : Value Span}
    (h : wholeValue context c = .ok (v, c')) (hs : AllSpelt c.kinds) :
    (Node.value (v.map forget)).IsSound := by
  obtain ⟨v, c₁, hv, h⟩ := bind_eq_ok h
  obtain ⟨u, c₂, -, h⟩ := bind_eq_ok h
  cases h
  obtain ⟨ts, hts, hform, hroom⟩ := yields_value context maxDepth c _ _ hv
  rw [hts, allSpelt_append] at hs
  exact Node.isSound_of_literals (hform.wellFormed hs.1) hroom (hform.strings 0)

theorem wholeType_sound {t : TypeRef Span} (h : wholeType c = .ok (t, c'))
    (hs : AllSpelt c.kinds) : (Node.type (t.map forget)).IsSound := by
  obtain ⟨t, c₁, ht, h⟩ := bind_eq_ok h
  obtain ⟨u, c₂, -, h⟩ := bind_eq_ok h
  cases h
  obtain ⟨ts, hts, hform, hroom⟩ := yields_typeRef maxDepth c _ _ ht
  rw [hts, allSpelt_append] at hs
  exact Node.isSound_of_literals (hform.wellFormed hs.1) hroom fromLiterals_nil

theorem whole_sound {entry : Entry} {n : Node Span} (h : whole entry c = .ok (n, c'))
    (hs : AllSpelt c.kinds) : (n.map forget).IsSound := by
  cases entry with
  | document =>
    obtain ⟨d, c₁, hd, h⟩ := bind_eq_ok h
    cases h
    obtain ⟨ts, hts, hform, hroom, -⟩ := document_sound hd
    rw [hts, allSpelt_append] at hs
    exact Node.isSound_of_literals (hform.wellFormed hs.1) hroom hform.strings
  | value =>
    obtain ⟨v, c₁, hv, h⟩ := bind_eq_ok h
    cases h
    exact wholeValue_sound hv hs
  | constValue =>
    obtain ⟨v, c₁, hv, h⟩ := bind_eq_ok h
    cases h
    exact wholeValue_sound hv hs
  | type =>
    obtain ⟨t, c₁, ht, h⟩ := bind_eq_ok h
    cases h
    exact wholeType_sound ht hs

end Parser

/-- **Parsed trees are well-formed.** Whatever is parsed, with locations or without, in
a tree that is returned names and numbers obey the lexical rules, enum values are not
literals, no fragment is named by the word `on`, documents and selection sets are not empty,
block strings are cut to their normal form, and nothing nests deeper than the limit. -/
theorem parsed_isSound {entry : Entry} {options : ParseOptions} {source : Source}
    {n : Node (Option Location)} (h : Node.parse entry options source = .ok n) : n.IsSound := by
  rw [Node.parse, Node.ofTokens_eq] at h
  cases hrun : (Parser.whole entry).run source (tokenize source.body) with
  | error e =>
    rw [hrun] at h
    cases h
  | ok m =>
    rw [hrun] at h
    obtain rfl := Except.ok.inj h
    obtain ⟨c, hc⟩ := Parser.run_eq_ok.1 hrun
    obtain ⟨kinds, hkinds, -, hs⟩ := tokenize_kinds source.body
    have spelt : AllSpelt (Cursor.mk (tokenize source.body) none).kinds := by
      rw [Cursor.kinds, hkinds, allSpelt_append]
      exact ⟨hs, by simp [AllSpelt, TokenKind.Spelt]⟩
    rw [Node.isSound_map, ← Node.isSound_map forget]
    exact Parser.whole_sound hc spelt

/-- The indented line of a block string comes to the margin. -/
def indentedBlock : Source := .ofText "\"\"\"\n a\"\"\""

theorem indentedBlock_isSound :
    Node.parse .value .unlocated indentedBlock = .ok (.value (.string ⟨"a", true, none⟩)) ∧
      (Node.value (.string ⟨"a", true, none⟩) : Node (Option Location)).IsSound := by
  have tokens := (Word.ofScan '"' ['"', '"', '\n', ' ', 'a', '"', '"', '"'] (by decide)
    (by decide)).alone
  have parsed : Node.parse .value .unlocated indentedBlock =
      .ok (.value (.string ⟨"a", true, none⟩)) := by
    have lexed : tokenize indentedBlock.body = _ := tokens
    rw [Node.parse, lexed]
    rfl
  exact ⟨parsed, parsed_isSound parsed⟩

end QueryDoc
