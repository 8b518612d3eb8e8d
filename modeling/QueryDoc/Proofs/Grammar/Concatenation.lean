import QueryDoc.Proofs.Location.Covering
import QueryDoc.Proofs.Location.Stretch
import QueryDoc.Syntax.Printer

/-!
# Documents one after the other

Two documents with a line feed between them are one document, with the definitions of both.
The line feed ends whatever the first text ends with, a comment or a unit, so the tokens
are those of the first and then those of the second; and definitions stand one after the
other without anything between them, each with its own nesting. When the definitions are
printed as one document an empty line comes between the two texts.
-/
namespace QueryDoc
open Lexical Grammar

/-! ## Derivations -/

theorem Grammar.Many.append {β : Type} {P : List TokenKind → β → Prop}
    {ts us : List TokenKind} {xs ys : List β} (hx : Many P ts xs) (hy : Many P us ys) :
    Many P (ts ++ us) (xs ++ ys) := by
  induction hx with
  | nil => exact hy
  | cons hform _ ih =>
    rw [List.append_assoc]
    exact .cons hform ih

namespace Document

variable {α : Type}

/-- The definitions of one document and then those of another. -/
def append (d e : Document α) (info : α) : Document α := ⟨d.definitions ++ e.definitions, info⟩

theorem nesting_append (d e : Document α) (info : α) {n : Nat} :
    (d.append e info).nesting ≤ n ↔ d.nesting ≤ n ∧ e.nesting ≤ n := by
  simp only [nesting, append, deepest_le, List.forall_mem_append]

theorem bare_append (d e : Document Unit) :
    (d.append e ()).bare = d.bare.append e.bare none := by
  simp [bare, append, Document.map]

theorem derived_append {ts us : List TokenKind} {d e : Document Unit} (hd : DocumentForm ts d)
    (he : DocumentForm us e) : DocumentForm (ts ++ us) (d.append e ()) := by
  obtain ⟨hds, hne⟩ := hd
  obtain ⟨hes, -⟩ := he
  exact .mk (hds.append hes) (List.append_ne_nil_of_left_ne_nil hne _)

/-- Between the definitions of two documents there is an empty line, as there is between
any two. -/
theorem print_append {d e : Document α} (hd : d.definitions ≠ []) (he : e.definitions ≠ [])
    (info : α) : Printer.document (d.append e info) =
      Printer.document d ++ "\n\n" ++ Printer.document e := by
  rw [Printer.document, append, List.map_append]
  exact String.intercalate_append_of_ne_nil (by simpa using hd) (by simpa using he)

/-! ## Texts -/

/-- The text of a document: its tokens derive the document, also when another text stands
behind it, and nothing but gaps comes after them. -/
structure SpeltBy (text : List Char) (kinds : List TokenKind) (d : Document Unit) : Prop where
  form : DocumentForm kinds d
  room : d.nesting ≤ maxDepth
  lexes : ∃ mid gap, text = mid ++ gap ∧ (splitIgnored false gap).2 = [] ∧
    ∀ keep more, Harmless keep gap → LexesTo keep more → LexesTo (mid ++ keep) (kinds ++ more)

theorem exists_speltBy {source : Source} {n : Document (Option Location)}
    (h : Document.parse .unlocated source = .ok n) :
    ∃ kinds d, n = Document.bare d ∧ SpeltBy source.body.toList kinds d := by
  rw [parse, ofTokens_eq] at h
  cases hrun : Parser.document.run source (tokenize source.body) with
  | error e =>
    rw [hrun] at h
    cases h
  | ok m =>
    rw [hrun] at h
    obtain rfl := Except.ok.inj h
    obtain ⟨left, hleft⟩ := Parser.run_eq_ok.1 hrun
    obtain ⟨kinds, hkinds, form, room, ends⟩ := Parser.document_sound hleft
    obtain ⟨ts, s, took, -⟩ := Parser.document_covers hleft
    obtain rfl : ts.map Token.kind = kinds :=
      List.append_cancel_right (took.kinds.symm.trans hkinds)
    obtain ⟨r, gap, run, hgap⟩ := exists_run took.tokens took.proper
    obtain ⟨mid, hbody, -, hlex⟩ := run.text_before took.proper
    refine ⟨_, m.map forget, map_unlocated m, form, room, mid, gap, hbody, ?_, hlex⟩
    cases hsplit : (splitIgnored false gap).2 with
    | nil => rfl
    | cons c more =>
      -- a unit would be left, but only the end of input is
      rw [listFrom_cons hsplit] at hgap
      rw [Cursor.kinds, ← hgap] at ends
      exact absurd (beq_iff_eq.1 ends) (toKind_ne_endOfInput _ _ _)

theorem SpeltBy.lexesTo {text : List Char} {kinds : List TokenKind} {d : Document Unit}
    (h : SpeltBy text kinds d) : LexesTo text kinds := by
  obtain ⟨mid, gap, rfl, hgap, hlex⟩ := h.lexes
  simpa only [List.append_nil] using hlex gap [] (.start List.prefix_rfl) fun _ => listFrom_nil hgap

/-- The tokens of two documents with a line feed between them are those of both. -/
theorem SpeltBy.lexesTo_append {text text' : List Char} {kinds kinds' : List TokenKind}
    {d e : Document Unit} (hd : SpeltBy text kinds d) (he : SpeltBy text' kinds' e) :
    LexesTo (text ++ '\n' :: text') (kinds ++ kinds') := by
  obtain ⟨mid, gap, rfl, hgap, hlex⟩ := hd.lexes
  rw [List.append_assoc]
  refine hlex _ _ ?_ (.lineFeed hgap he.lexesTo)
  cases gap with
  | nil => exact .of_startsOutside (.cons (by decide) _)
  | cons c gap => exact fun d hd => .inl hd

end Document

/-- **Documents concatenate.** If two texts are parsed as documents, then so are the two with a
line feed between them, as the definitions of the first and then those of the second. Printed,
this document is the first as it is printed, an empty line, and the second. -/
theorem parse_concatenated (s s' whole : Source) (n n' : Document (Option Location))
    (hwhole : whole.body = s.body ++ "\n" ++ s'.body)
    (h : Document.parse .unlocated s = .ok n) (h' : Document.parse .unlocated s' = .ok n') :
    Document.parse .unlocated whole = .ok ⟨n.definitions ++ n'.definitions, none⟩ ∧
      Printer.document (⟨n.definitions ++ n'.definitions, none⟩ : Document (Option Location)) =
        Printer.document n ++ "\n\n" ++ Printer.document n' := by
  obtain ⟨kinds, d, rfl, hd⟩ := Document.exists_speltBy h
  obtain ⟨kinds', e, rfl, he⟩ := Document.exists_speltBy h'
  constructor
  · have hlex := hd.lexesTo_append he
    have hchars : whole.body.toList = s.body.toList ++ '\n' :: s'.body.toList := by
      simp [hwhole]
    rw [← hchars] at hlex
    have parsed : Document.parse .unlocated whole = .ok (d.append e ()).bare :=
      Document.ofTokens_of_derived hlex.tokenize (Document.derived_append hd.form he.form)
        ((Document.nesting_append d e ()).2 ⟨hd.room, he.room⟩)
    rwa [Document.bare_append] at parsed
  · have hne (kinds : List TokenKind) (d : Document Unit) (form : DocumentForm kinds d) :
        d.bare.definitions ≠ [] := by
      obtain ⟨-, hne⟩ := form
      simpa [Document.bare, Document.map] using hne
    exact Document.print_append (hne _ _ hd.form) (hne _ _ he.form) none

/-- A query for one field. -/
def queryFor (name : String) : Definition (Option Location) :=
  .operation ⟨none, .query, none, [], [], .mk [.field none ⟨name, none⟩ [] [] none none] none, none⟩

/-- The first text ends within a comment, and the second starts with a comma. -/
theorem openComment_concatenated :
    Document.parse .unlocated (.ofText "\x7ba\x7d#") = .ok ⟨[queryFor "a"], none⟩ ∧
      Document.parse .unlocated (.ofText ",\x7bb\x7d") = .ok ⟨[queryFor "b"], none⟩ ∧
      Document.parse .unlocated (.ofText "\x7ba\x7d#\n,\x7bb\x7d") =
        .ok ⟨[queryFor "a", queryFor "b"], none⟩ ∧
      Printer.document (⟨[queryFor "a", queryFor "b"], none⟩ : Document (Option Location)) =
        "\x7b\n  a\n\x7d\n\n\x7b\n  b\n\x7d" := by
  have chars : (Source.ofText "\x7ba\x7d#").body.toList = ['\x7b', 'a', '\x7d', '#'] := by decide
  have chars' : (Source.ofText ",\x7bb\x7d").body.toList = [',', '\x7b', 'b', '\x7d'] := by decide
  have first : Document.parse .unlocated (.ofText "\x7ba\x7d#") = .ok ⟨[queryFor "a"], none⟩ := by
    rw [Document.parse, Document.ofTokens_eq_run, tokenize, Token.listOf, chars,
      listFrom_cons (c := '\x7b') rfl, listFrom_cons (c := 'a') rfl,
      listFrom_cons (c := '\x7d') rfl, listFrom_end rfl]
    rfl
  have second : Document.parse .unlocated (.ofText ",\x7bb\x7d") =
      .ok ⟨[queryFor "b"], none⟩ := by
    rw [Document.parse, Document.ofTokens_eq_run, tokenize, Token.listOf, chars',
      listFrom_cons (c := '\x7b') rfl, listFrom_cons (c := 'b') rfl,
      listFrom_cons (c := '\x7d') rfl, listFrom_end rfl]
    rfl
  obtain ⟨parsed, printed⟩ := parse_concatenated _ _ (.ofText "\x7ba\x7d#\n,\x7bb\x7d") _ _
    (by decide) first second
  exact ⟨first, second, parsed, printed.trans (by decide)⟩

end QueryDoc
