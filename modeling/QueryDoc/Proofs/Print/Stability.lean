import QueryDoc.Proofs.Grammar.Parsed
import QueryDoc.Proofs.Print.RoundTrip

/-!
# When printing is stable

A parsed document is printed, parsed and printed again. The second text is the
first one if and only if every block string comes back as it was. What a block
string denotes has been cut to a normal form already, which printing at a depth
may disturb: at the margin the literal must have no line that is indented, for
the common indent passes over the lines that are not, and below it some line must
start at the margin of the literal, for the indent is taken off otherwise.
-/
namespace QueryDoc
open Lexical Grammar Printer

variable {α : Type}

/-! ## Parsed documents -/

theorem Lexical.Emits.spelt {text : String} {ts : List TokenKind} (h : Emits text ts) :
    AllSpelt ts := by
  obtain ⟨kinds, hkinds, -, hs⟩ := tokenize_kinds text
  rwa [List.append_cancel_right (hkinds.symm.trans h.tokenize)] at hs

/-- What is parsed is a derived tree of tokens that are spelt by the rules. -/
theorem Document.derived_of_parse {source : Source} {n : Document (Option Location)}
    (h : Document.parse .unlocated source = .ok n) :
    ∃ kinds e, n = Document.bare e ∧ DocumentForm kinds e ∧ AllSpelt kinds ∧
      e.nesting ≤ maxDepth := by
  obtain ⟨kinds, hkinds, hend, hs⟩ := tokenize_kinds source.body
  obtain ⟨e, he, hform, hroom⟩ := Document.derived_of_ofTokens hkinds hend h
  exact ⟨kinds, e, he, hform, hs, hroom⟩

/-! ## Strings that come back -/

theorem reread_eq_iff (depth : Nat) {text : String}
    (h : StringLiteral.IsLaidOut text.toList) :
    reread depth text = text ↔ StringLiteral.KeepsIndent (2 * depth) text.toList := by
  rw [← StringLiteral.dedent_blockContent_iff (2 * depth) h, reread, ← String.toList_inj,
    String.toList_ofList]

theorem fixes_of_literals {before : List (Nat × StringValue α)}
    {after : List (Nat × StringValue Unit)} (hfollows : Follows reread before after)
    (h : after.map literal = before.map literal) : Fixes reread before := by
  induction before generalizing after with
  | nil => exact fun p hp => nomatch hp
  | cons p ps ih =>
    cases after with
    | nil => cases h
    | cons q qs =>
      obtain ⟨hq, hqs⟩ := List.cons.inj hfollows
      replace hq : q.2 = p.2.rewrite reread p.1 := hq
      obtain ⟨hliteral, hliterals⟩ := List.cons.inj h
      refine List.forall_mem_cons.2 ⟨fun hb => ?_, ih hqs hliterals⟩
      have hqvalue : q.2.value = reread p.1 p.2.value := by rw [hq, StringValue.rewrite, if_pos hb]
      have hqblock : q.2.block = true := by rw [hq, StringValue.rewrite, hb]
      rw [literal, literal, stringValue_block hqblock, stringValue_block hb] at hliteral
      obtain ⟨-, hvalue⟩ := StringLiteral.blockLiteral_inj (String.ofList_injective hliteral)
      rw [← hqvalue]
      exact String.toList_inj.1 hvalue

theorem Document.print_rewrite_iff {d : Document α} (hd : d.WellFormed) :
    Printer.document (d.rewrite reread) = Printer.document d ↔ Fixes reread d.strings := by
  constructor
  · intro h
    obtain ⟨ts, hts, hform, hraw⟩ := prints_document hd
    obtain ⟨us, hus, -, hraws⟩ := prints_document (hform.wellFormed hts.spelt)
    have hkinds : us = ts := by
      rw [h] at hus
      exact List.append_cancel_right (hus.tokenize.symm.trans hts.tokenize)
    rw [hkinds, hraw] at hraws
    exact fixes_of_literals (Document.strings_rewrite d) hraws.symm
  · intro h
    rw [Document.rewrite_eq_map h, document_map]

/-- **Printing again changes nothing but where block strings do not come back.** -/
theorem print_stable_iff (source : Source) (n : Document (Option Location))
    (h : Document.parse .unlocated source = .ok n) :
    ∃ m, Document.parse .unlocated (.ofText (Printer.document n)) = .ok m ∧
      (Printer.document m = Printer.document n ↔ ∀ p ∈ n.strings, p.2.block = true →
        StringLiteral.KeepsIndent (2 * p.1) p.2.value.toList) := by
  obtain ⟨kinds, e, rfl, hform, hs, hroom⟩ := Document.derived_of_parse h
  have hwf := hform.wellFormed hs
  refine ⟨(e.rewrite reread).bare, ?_, ?_⟩
  · rw [Document.bare, document_map]
    exact Document.parse_print hwf hroom
  · rw [Document.bare, Document.bare, document_map, document_map, Document.print_rewrite_iff hwf,
      Document.strings_map, List.forall_mem_map]
    apply forall₂_congr
    intro p hp
    apply imp_congr_right
    intro hb
    obtain ⟨ts, hstring⟩ := hform.strings p hp
    exact reread_eq_iff p.1 (hstring.isLaidOut hb)

/-- A query with a block string in front. -/
def describedQuery (text : String) : Document (Option Location) :=
  ⟨[.operation ⟨some ⟨text, true, none⟩, .query, some ⟨"q", none⟩, [], [],
    .mk [.field none ⟨"f", none⟩ [] [] none none] none, none⟩], none⟩

theorem parse_describedQuery (text : String) :
    Document.parse .unlocated (.ofText (Printer.document (describedQuery text))) =
      .ok (describedQuery (reread 0 text)) := by
  have hname : ∀ n ∈ some (⟨"q", none⟩ : Name (Option Location)), n.WellFormed := by
    rintro n ⟨⟩
    exact show IsName _ by decide
  have hroom : (describedQuery text).nesting ≤ maxDepth := show 1 ≤ maxDepth by decide
  exact Document.parse_print ⟨by simp [describedQuery],
    List.forall_mem_singleton.2 ⟨hname, by simp, by simp, oneField_wellFormed none⟩⟩ hroom

/-- Lines that all start at the margin stay there. -/
theorem evenDescription_stable :
    ∃ m, Document.parse .unlocated (.ofText (Printer.document (describedQuery "a\nb"))) = .ok m ∧
      Printer.document m = Printer.document (describedQuery "a\nb") := by
  obtain ⟨m, hm, hstable⟩ := print_stable_iff _ _ (parse_describedQuery "a\n b")
  have hvalue : reread 0 "a\n b" = "a\nb" := by decide
  rw [hvalue] at hm hstable
  refine ⟨m, hm, hstable.2 fun p hp _ => ?_⟩
  rw [List.mem_singleton.1 hp]
  simp only [StringLiteral.KeepsIndent, if_true]
  decide

/-- At the margin the least of several indents is lost each time. -/
theorem unevenDescription_not_stable :
    ∃ n m, Document.parse .unlocated
        (.ofText "\"\"\"\na\n b\n  c\n\"\"\"\nquery q \x7b\n  f\n\x7d") = .ok n ∧
      Document.parse .unlocated (.ofText (Printer.document n)) = .ok m ∧
      Printer.document m ≠ Printer.document n := by
  have htext : "\"\"\"\na\n b\n  c\n\"\"\"\nquery q \x7b\n  f\n\x7d" =
      Printer.document (describedQuery "a\n b\n  c") := by decide
  rw [htext]
  refine ⟨_, _, parse_describedQuery _, parse_describedQuery _, ?_⟩
  decide

end QueryDoc
