import QueryDoc.Proofs.Grammar.Acceptance
import QueryDoc.Proofs.Print.Emission

/-!
# What is printed is read back

The text of a well-formed tree within the depth limit is accepted, and the tree
that comes back is the one that was printed but for the text of its block
strings. These are printed with the indentation of their place, so their text
comes back as what their literal denotes there. A tree without block strings
comes back as it was.
-/
namespace QueryDoc

variable {α : Type}

/-- None of the strings is a block string. -/
def NoBlock (strings : List (Nat × StringValue α)) : Prop := ∀ p ∈ strings, p.2.block = false

theorem NoBlock.fixes {strings : List (Nat × StringValue α)} (h : NoBlock strings)
    (f : Nat → String → String) : Fixes f strings := by
  intro p hp hb
  rw [h p hp] at hb
  cases hb

theorem Document.map_none (d : Document α) : (d.map forget).bare = d.map fun _ => none :=
  Document.map_map forget (fun _ => none) d

theorem Value.map_none (v : Value α) : (v.map forget).bare = v.map fun _ => none :=
  Value.map_map forget (fun _ => none) v

theorem TypeRef.map_none (t : TypeRef α) : (t.map forget).bare = t.map fun _ => none :=
  TypeRef.map_map forget (fun _ => none) t

theorem Document.parse_print {d : Document α} (hd : d.WellFormed) (hroom : d.nesting ≤ maxDepth) :
    Document.parse .unlocated (.ofText (Printer.document d)) =
      .ok (d.rewrite Printer.reread).bare := by
  obtain ⟨ts, hts, hform, -⟩ := Printer.prints_document hd
  rw [← Document.nesting_rewrite Printer.reread] at hroom
  exact Document.ofTokens_of_derived hts.tokenize hform hroom

theorem Value.parse_print {v : Value α} (hv : v.WellFormed) (hroom : v.nesting ≤ maxDepth) :
    Value.parse .unlocated (.ofText (Printer.value 0 v)) =
      .ok (v.rewrite Printer.reread 0).bare := by
  obtain ⟨ts, hts, hform, -⟩ := Printer.prints_value false 0 hv Bool.false_ne_true.elim
  rw [← Value.nesting_rewrite Printer.reread 0] at hroom
  exact Value.ofTokens_of_derived hts.tokenize hform hroom

theorem TypeRef.parse_print {t : TypeRef α} (ht : t.WellFormed) (hroom : t.nesting ≤ maxDepth) :
    TypeRef.parse .unlocated (.ofText (Printer.typeRef t)) = .ok (t.map forget).bare := by
  obtain ⟨ts, hts, hform, -⟩ := Printer.emits_typeRef t ht
  rw [← TypeRef.nesting_map forget] at hroom
  exact TypeRef.ofTokens_of_derived hts.tokenize hform hroom

/-- **Parsing inverts printing.** A document or a value comes back with the text
of its block strings replaced, and with nothing else changed; if it has none, it
comes back as it was, as a type always does. -/
theorem parse_inverts_print (d : Document α) (v : Value α) (t : TypeRef α) :
    (d.WellFormed → d.nesting ≤ maxDepth →
      Document.parse .unlocated (.ofText (Printer.document d)) =
          .ok (d.rewrite Printer.reread).bare ∧
        (NoBlock d.strings → Document.parse .unlocated (.ofText (Printer.document d)) =
          .ok (d.map fun _ => none))) ∧
    (v.WellFormed → v.nesting ≤ maxDepth →
      Value.parse .unlocated (.ofText (Printer.value 0 v)) =
          .ok (v.rewrite Printer.reread 0).bare ∧
        (NoBlock (v.strings 0) → Value.parse .unlocated (.ofText (Printer.value 0 v)) =
          .ok (v.map fun _ => none))) ∧
    (t.WellFormed → t.nesting ≤ maxDepth →
      TypeRef.parse .unlocated (.ofText (Printer.typeRef t)) = .ok (t.map fun _ => none)) := by
  refine ⟨?_, ?_, ?_⟩
  · intro hd hroom
    have hparse := Document.parse_print hd hroom
    constructor
    · exact hparse
    · intro hblock
      rw [hparse, Document.rewrite_eq_map (hblock.fixes _), Document.map_none]
  · intro hv hroom
    have hparse := Value.parse_print hv hroom
    constructor
    · exact hparse
    · intro hblock
      rw [hparse, Value.rewrite_eq_map (hblock.fixes _), Value.map_none]
  · intro ht hroom
    rw [TypeRef.parse_print ht hroom, TypeRef.map_none]

theorem oneField_wellFormed (i : α) :
    SelectionSet.WellFormed (.mk [.field none ⟨"f", i⟩ [] [] none i] i) := by
  have hfield : Name.WellFormed (⟨"f", i⟩ : Name α) := show Lexical.IsName "f".toList by decide
  simpa [SelectionSet.WellFormed, Selection.wellFormed_field] using hfield

theorem smallTrees_parse_print :
    Document.parse .unlocated (.ofText "\x7b\n  f\n\x7d") = .ok ⟨[.operation ⟨none, .query, none,
        [], [], .mk [.field none ⟨"f", none⟩ [] [] none none] none, none⟩], none⟩ ∧
      Value.parse .unlocated (.ofText "[\"\"\"\na\n b\n\"\"\", 1]") =
        .ok (.list [.string ⟨"a\nb", true, none⟩, .int "1" none] none) ∧
      TypeRef.parse .unlocated (.ofText "A!") =
        .ok (.nonNull (.named ⟨⟨"A", none⟩, none⟩) none) := by
  obtain ⟨hdocument, hvalue, htype⟩ := parse_inverts_print
    (⟨[.operation ⟨none, .query, none, [], [], .mk
      [.field none ⟨"f", ()⟩ [] [] none ()] (), ()⟩], ()⟩ : Document Unit)
    (.list [.string ⟨"a\n b", true, ()⟩, .int "1" ()] ()) (.nonNull (.named ⟨⟨"A", ()⟩, ()⟩) ())
  have hone : Lexical.IsInteger ['1'] := ⟨[], ['1'], rfl, .inl rfl, by simp, by simp⟩
  have htypeName : Lexical.IsName "A".toList := by decide
  have hreread : Printer.reread 0 "a\n b" = "a\nb" := by decide
  refine ⟨(hdocument ⟨by simp, ?_⟩ (by decide)).2 ?_, ?_, htype htypeName (by decide)⟩
  · exact List.forall_mem_singleton.2 ⟨by simp, by simp, by simp, oneField_wellFormed ()⟩
  · intro p hp
    cases hp
  · rw [← hreread]
    exact (hvalue ⟨trivial, hone, trivial⟩ (by decide)).1

end QueryDoc
