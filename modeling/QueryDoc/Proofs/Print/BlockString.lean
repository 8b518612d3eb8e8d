import QueryDoc.Proofs.Lexical.Spacing
import QueryDoc.Proofs.Print.Emission

/-!
# Block strings that come back

A string printed as a block string is one token, whatever its text and the
indentation, and the token has a value. This value is the string itself if and
only if the decoder has nothing to take away: the string is empty, or only line
feeds end its lines, the lines at both ends are not blank, and the lines have no
indent in common with the one that was printed.
-/
namespace QueryDoc.StringLiteral

/-- The condition on a text for coming back from a block string that was printed with
`k` spaces. With spaces one line at the margin is enough. Without, lines at the margin
are not counted, so there no line may be indented. -/
def ComesBack (k : Nat) (cs : List Char) : Prop :=
  cs = [] ∨ '\r' ∉ cs ∧ HasSolidEnds cs ∧
    if 0 < k then
      ∃ l ∈ splitChars '\n' cs, isBlankLine l = false ∧ ∀ c ∈ l.head?, isBlank c = false
    else ∀ l ∈ splitChars '\n' cs, isBlankLine l = false → ∀ c ∈ l.head?, isBlank c = false

theorem comesBack_iff (k : Nat) (cs : List Char) :
    ComesBack k cs ↔ IsLaidOut cs ∧ KeepsIndent k cs := by
  by_cases hempty : cs = []
  · subst hempty
    have hkeeps : KeepsIndent k [] := by simp [KeepsIndent, splitLines, isBlankLine]
    exact iff_of_true (.inl rfl) ⟨.inl rfl, hkeeps⟩
  rw [ComesBack, isLaidOut_iff, or_iff_right hempty, or_iff_right hempty, and_assoc]
  refine and_congr_right fun hreturn => and_congr_right fun _ => ?_
  rw [KeepsIndent, splitLines_eq_splitChars hreturn]
  rcases Nat.eq_zero_or_pos k with rfl | hk
  · simp [indentOf_eq_zero]
  · simp [indentOf_eq_zero, hk, hempty, Nat.pos_iff_ne_zero.1 hk]

/-- What is read back from a printed block string. -/
theorem dedent_eq_self_iff (k : Nat) (cs : List Char) :
    dedent (escapeTriples (blockContent k cs)) = cs ↔ ComesBack k cs := by
  rw [comesBack_iff]
  constructor
  · intro h
    have hlaid : IsLaidOut cs := by
      rw [← h]
      exact isLaidOut_dedent _
    exact ⟨hlaid, (dedent_blockContent_iff k hlaid).1 h⟩
  · exact fun ⟨hlaid, hkeeps⟩ => (dedent_blockContent_iff k hlaid).2 hkeeps

/-- The text of a block string whose lines are indented by `k` spaces. -/
theorem withLineFeed_quoteBlock (k : Nat) (cs : List Char) :
    Printer.withLineFeed ("\n" ++ String.ofList (spaces k)) (quoteBlock cs) =
      String.ofList (blockLiteral k cs) := by
  rw [Printer.withLineFeed_eq, indent_quoteBlock]

theorem listOf_blockLiteral (k : Nat) (cs : List Char) :
    Token.listOf (blockLiteral k cs) =
      [⟨.string (String.ofList (blockLiteral k cs)), ⟨.zero, .after (blockLiteral k cs)⟩⟩,
        ⟨.endOfInput, .emptyAt (.after (blockLiteral k cs))⟩] := by
  obtain ⟨more, -, hnext⟩ := Scan.next_blockLiteral k cs []
  have unit : (Scan.next '"' more).IsUnit := by
    intro f hf
    rw [hnext] at hf
    cases hf
  have alone := (Lexical.Word.ofScan '"' more unit (by decide)).alone
  simpa only [Lexical.Word.ofScan, hnext, Lexeme.toKind] using alone

/-- **Which block strings come back.** Printed with `k` spaces behind every line feed,
where a printer at depth `d` takes `2 * d`, a block string is one token and then the end
of input, and it has a value. This value is what was printed exactly under the condition
`ComesBack`. -/
theorem blockString_value {α : Type} (s : StringValue α) (k : Nat) :
    let text (k : Nat) :=
      Printer.withLineFeed ("\n" ++ String.ofList (spaces k)) (quoteBlock s.value.toList)
    (∀ depth, Printer.stringValue depth { s with block := true } = text (2 * depth)) ∧
    tokenize (text k) = [⟨.string (text k), ⟨.zero, .after (text k).toList⟩⟩,
      ⟨.endOfInput, .emptyAt (.after (text k).toList)⟩] ∧
    isBlock (text k).toList = true ∧
    ∃ w, decode (text k).toList = .ok w ∧ (w = s.value.toList ↔ ComesBack k s.value.toList) := by
  intro text
  have htext : text k = String.ofList (blockLiteral k s.value.toList) :=
    withLineFeed_quoteBlock k s.value.toList
  rw [htext, String.toList_ofList]
  refine ⟨fun depth => rfl, ?_, isBlock_blockLiteral k s.value.toList, _,
    decode_blockLiteral k s.value.toList, dedent_eq_self_iff k s.value.toList⟩
  rw [tokenize, String.toList_ofList, listOf_blockLiteral]

end QueryDoc.StringLiteral
