import QueryDoc.Proofs.Lexical.Cut
import QueryDoc.Proofs.Lexical.Origin
import QueryDoc.Proofs.StringLiteral.Block
import QueryDoc.Proofs.StringLiteral.Escapes

/-!
# Where string literals end

The scanner decides where a literal ends and keeps its raw text, and the decoder finds the
ends again in the raw text. Both pair a backslash with what follows it: the scanner with
one character whatever it is, the decoder with a whole escape. The two never disagree. A
content that the scanner let pass is cut after every unit of the decoder into contents
that the scanner lets pass, so no backslash is left alone at its end.
-/
namespace QueryDoc
open StringLiteral

/-- What may stand between the quotes of a single-line string: characters that are no
quote, no backslash and end no line, and pairs of a backslash and a character that ends no
line. -/
inductive QuotedText : List Char → Prop
  | nil : QuotedText []
  | plain {c : Char} {cs : List Char} : c ≠ '"' → c ≠ '\\' → isLineEnd c = false →
      QuotedText cs → QuotedText (c :: cs)
  | paired {c : Char} {cs : List Char} : isLineEnd c = false →
      QuotedText cs → QuotedText ('\\' :: c :: cs)

/-- What a string scanner takes of the characters that are left. The flag says that it is
the scanner of block strings, which is run wherever three quotes stand. -/
inductive StringScan : Bool → (left raw : List Char) → Prop
  | line {cs : List Char} : ¬ ['"', '"'] <+: cs → (Scan.quoted cs).lexeme = .string →
      StringScan false ('"' :: cs) ('"' :: (Scan.quoted cs).text)
  | block {cs : List Char} : (Scan.block cs).lexeme = .string →
      StringScan true (tripleQuote ++ cs) (tripleQuote ++ (Scan.block cs).text)

/-! ## The scanners -/

namespace Scan

theorem quoted_lineEnd {c : Char} (cs : List Char) (h : isLineEnd c = true) :
    quoted (c :: cs) = ⟨.fault .stringAtLineEnd, [], c :: cs⟩ := by
  simp only [isLineEnd, Bool.or_eq_true, beq_iff_eq] at h
  rcases h with rfl | rfl <;> rfl

theorem quoted_text {cs : List Char} :
    (quoted cs).lexeme = .string →
      ∃ content, (quoted cs).text = content ++ ['"'] ∧ QuotedText content := by
  fun_induction quoted cs with
  | case2 => exact fun _ => ⟨[], rfl, .nil⟩
  | case3 c cs hend =>
    -- a backslash is no way to get past the end of the line
    rw [quoted_lineEnd cs hend]
    intro h
    cases h
  | case4 c cs hend ih =>
    intro h
    obtain ⟨content, htext, hcontent⟩ := ih h
    exact ⟨'\\' :: c :: content, by simp [htext], .paired (by simpa using hend) hcontent⟩
  | case6 c cs hquote hslash hend ih =>
    intro h
    obtain ⟨content, htext, hcontent⟩ := ih h
    have hplain : c ≠ '\\' := by
      rintro rfl
      -- a backslash at the end leaves the string open
      cases cs with
      | nil => cases h
      | cons d ds => exact hslash d ds rfl rfl
    exact ⟨c :: content, by simp [htext], .plain hquote hplain (by simpa using hend) hcontent⟩
  | _ =>
    intro h
    cases h

theorem block_text {cs : List Char} :
    (block cs).lexeme = .string → ∃ content, (block cs).text = content ++ tripleQuote := by
  fun_induction block cs with
  | case1 =>
    intro h
    cases h
  | case2 cs ih =>
    intro h
    obtain ⟨content, htext⟩ := ih h
    exact ⟨'\\' :: '"' :: '"' :: '"' :: content, by simp [htext]⟩
  | case3 => exact fun _ => ⟨[], rfl⟩
  | case4 c cs _ _ ih =>
    intro h
    obtain ⟨content, htext⟩ := ih h
    exact ⟨c :: content, by simp [htext]⟩

theorem exponent_ne_string {lexeme : Lexeme} (h : lexeme ≠ .string) (text cs : List Char) :
    (exponent lexeme text cs).lexeme ≠ .string := by
  rcases Lexical.exponent_cases lexeme text cs with ⟨x, rest, heq, -⟩ | ⟨heq, -⟩ | ⟨f, heq⟩
  · simp [heq]
  · simpa [heq] using h
  · simp [heq]

theorem number_ne_string (sign cs : List Char) : (number sign cs).lexeme ≠ .string := by
  unfold number
  split
  · unfold fraction
    split
    · split
      · exact exponent_ne_string (by simp) _ _
      · simp [brokenNumber]
    · exact exponent_ne_string (by simp) _ _
  · simp

/-- Only what starts with a quote is scanned as a string. -/
theorem next_string {c : Char} {cs : List Char} (h : (next c cs).lexeme = .string) :
    c = '"' ∧ next c cs = string cs := by
  unfold next at h ⊢
  split at h
  · cases h
  · split_ifs at h ⊢ with hdot hquote hname hminus hdigit
    · rcases Lexical.dots_lexeme cs with heq | ⟨f, heq⟩ <;> simp [heq] at h
    · exact ⟨hquote, rfl⟩
    · cases h
    · exact absurd h (number_ne_string _ _)
    · exact absurd h (number_ne_string _ _)

end Scan

theorem Lexeme.toKind_eq_string {start : Position} {text : List Char} {lexeme : Lexeme}
    {raw : String} (h : lexeme.toKind start text = .string raw) :
    lexeme = .string ∧ raw.toList = text := by
  cases lexeme with
  | string =>
    obtain rfl := TokenKind.string.inj h
    exact ⟨rfl, String.toList_ofList⟩
  | name =>
    simp only [toKind] at h
    split_ifs at h
  | _ => cases h

/-- The text of a string token was taken by a string scanner, where the token stands. -/
theorem Token.ComesFrom.stringScan {body before left : List Char} {t : Token} {raw : String}
    (h : t.ComesFrom body before left) (hkind : t.kind = .string raw) :
    ∃ block, StringScan block left raw.toList := by
  cases h with
  | ending => cases hkind
  | @unit _ c more hbody =>
    obtain ⟨hlexeme, hraw⟩ := Lexeme.toKind_eq_string hkind
    obtain ⟨rfl, hstring⟩ := Scan.next_string hlexeme
    rw [hstring] at hlexeme
    rw [hraw, hstring]
    clear hkind hraw hstring hbody
    unfold Scan.string at hlexeme ⊢
    split at hlexeme
    · exact ⟨true, .block hlexeme⟩
    · rename_i hline
      refine ⟨false, .line ?_ hlexeme⟩
      rintro ⟨cs, rfl⟩
      exact hline cs rfl

/-! ## The decoder -/

namespace QuotedText
variable {cs rest : List Char}

theorem of_plain {c : Char} (h : QuotedText (c :: cs)) (hc : c ≠ '\\') : QuotedText cs := by
  cases h with
  | plain _ _ _ htail => exact htail
  | paired => exact absurd rfl hc

theorem of_pair {c : Char} (h : QuotedText ('\\' :: c :: cs)) : QuotedText cs := by
  cases h with
  | plain _ hslash => exact absurd rfl hslash
  | paired _ htail => exact htail

theorem of_append (h : QuotedText (cs ++ rest)) (hcs : ∀ c ∈ cs, c ≠ '\\') : QuotedText rest := by
  induction cs with
  | nil => exact h
  | cons c cs ih =>
    obtain ⟨hc, htail⟩ := List.forall_mem_cons.1 hcs
    exact ih (h.of_plain hc) htail

/-- A unit of the decoder is passed over by the scanner too. -/
theorem of_denotes {x : Char} (unit : Denotes cs x) (h : QuotedText (cs ++ rest)) :
    QuotedText rest := by
  have digits : ∀ {ds : List Char} {n : Nat}, Hex4 ds n → ∀ c ∈ ds, c ≠ '\\' := by
    rintro ds n hex _ hc rfl
    exact absurd (hex.number.2.1 _ hc) (by decide)
  cases unit with
  | plain hplain => exact h.of_plain hplain
  | short => exact h.of_pair
  | unicode hex => exact h.of_pair.of_append (digits hex)
  | pair hex _ _ hex' =>
    simp only [List.cons_append, List.append_assoc] at h
    exact ((h.of_pair.of_append (digits hex)).of_pair).of_append (digits hex')

theorem of_splits {units : List (List Char × Char)} (split : Splits cs units)
    (h : QuotedText (cs ++ rest)) : QuotedText rest := by
  induction units generalizing cs with
  | nil =>
    obtain rfl := split.text
    exact h
  | cons u units ih =>
    obtain ⟨hu, tail, rfl, htail⟩ := splits_cons.1 split
    rw [List.append_assoc] at h
    exact ih htail (of_denotes hu h)

/-- Where the decoder fails on such a text, it fails on an escape that is all there. -/
theorem unescape_error {e : StringError} (h : QuotedText cs) (he : unescape cs = .error e) :
    e ≠ .unterminated ∧ e ≠ .invalidEscape "\\" := by
  rw [unescape_eq_readUnits] at he
  obtain ⟨taken, units, c, tail, hsplit, rfl, hstop⟩ := readUnits_error he
  have htail := of_splits hsplit h
  obtain ⟨hlast, -⟩ | ⟨x, rfl⟩ | ⟨text, rfl⟩ := readUnit_error hstop
  · rw [hlast] at htail
    cases htail with
    | plain _ hslash => exact absurd rfl hslash
  · refine ⟨nofun, fun h => ?_⟩
    have := congrArg String.toList (StringError.invalidEscape.inj h)
    simp at this
  · exact ⟨nofun, nofun⟩

end QuotedText

/-! ## Both together -/

namespace StringScan
variable {left raw : List Char}

/-- The raw text of a single-line string. -/
theorem line_text (h : StringScan false left raw) :
    ∃ content, raw = '"' :: (content ++ ['"']) ∧ QuotedText content := by
  cases h with
  | line _ hlexeme =>
    obtain ⟨content, htext, hcontent⟩ := Scan.quoted_text hlexeme
    exact ⟨content, by rw [htext], hcontent⟩

/-- The raw text of a block string. -/
theorem block_text (h : StringScan true left raw) :
    ∃ content, raw = tripleQuote ++ (content ++ tripleQuote) := by
  cases h with
  | block hlexeme =>
    obtain ⟨content, htext⟩ := Scan.block_text hlexeme
    exact ⟨content, by rw [htext]⟩

/-- The decoder takes a literal for what the scanner took it for. -/
theorem isBlock_eq {block : Bool} (h : StringScan block left raw) : isBlock raw = block := by
  cases block with
  | true =>
    obtain ⟨content, rfl⟩ := h.block_text
    exact List.isPrefixOf_iff_prefix.2 (List.prefix_append _ _)
  | false =>
    obtain ⟨content, rfl, hcontent⟩ := h.line_text
    cases hcontent with
    | nil => decide
    | plain hquote => simp [isBlock, tripleQuote, List.isPrefixOf, hquote.symm]
    | paired => simp [isBlock, tripleQuote, List.isPrefixOf]

end StringScan

/-- The scanner and the decoder agree on a literal, with the text `left` from its start on. -/
structure EndsAlike (left raw : List Char) : Prop where
  /-- It is a block string for both of them or for none. -/
  kind : ∀ block, StringScan block left raw ↔ isBlock raw = block
  closed : decode raw ≠ .error .unterminated
  /-- No backslash is left without a character after it. -/
  paired : decode raw ≠ .error (.invalidEscape "\\")
  block : isBlock raw = true → ∃ value, decode raw = .ok value
  line : isBlock raw = false → ∃ content, raw = '"' :: (content ++ ['"']) ∧ QuotedText content

theorem StringScan.endsAlike {left raw : List Char} {block : Bool}
    (h : StringScan block left raw) : EndsAlike left raw := by
  have hblock := h.isBlock_eq
  have hkind : ∀ b, StringScan b left raw ↔ isBlock raw = b := by
    refine fun b => ⟨StringScan.isBlock_eq, fun hb => ?_⟩
    rwa [← hb, hblock]
  cases block with
  | true =>
    obtain ⟨content, rfl⟩ := h.block_text
    have hvalue := decode_block content
    exact ⟨hkind, by simp [hvalue], by simp [hvalue], fun _ => ⟨_, hvalue⟩, by simp [hblock]⟩
  | false =>
    obtain ⟨content, rfl, hcontent⟩ := h.line_text
    have hvalue := decode_line hblock
    refine ⟨hkind, ?_, ?_, by simp [hblock], fun _ => ⟨content, rfl, hcontent⟩⟩
    · rw [hvalue]
      exact fun he => (hcontent.unescape_error he).1 rfl
    · rw [hvalue]
      exact fun he => (hcontent.unescape_error he).2 rfl

/-- Wherever a string token stands in a body, the scanner and the decoder agree on it. -/
theorem literals_endAlike {body : String} {t : Token} (ht : t ∈ tokenize body) {raw : String}
    (hraw : t.kind = .string raw) :
    ∃ before left, t.ComesFrom body.toList before left ∧ EndsAlike left raw.toList := by
  obtain ⟨before, left, origin⟩ := tokenize_comesFrom body t ht
  obtain ⟨block, hscan⟩ := origin.stringScan hraw
  exact ⟨before, left, origin, hscan.endsAlike⟩

/-- A literal with an escaped backslash in front of its closing quote. -/
def escapedBackslash : Token := ⟨.string "\"\\\\\"", ⟨⟨0, 0, 0, 0⟩, ⟨0, 4, 4, 4⟩⟩⟩

theorem escapedBackslash_endsAlike :
    escapedBackslash ∈ tokenize "\"\\\\\"\"" ∧
      escapedBackslash.kind = .string "\"\\\\\"" ∧
      ∃ before left, escapedBackslash.ComesFrom "\"\\\\\"\"".toList before left ∧
        EndsAlike left "\"\\\\\"".toList := by
  have chars : "\"\\\\\"\"".toList = ['"', '\\', '\\', '"', '"'] := by decide
  have mem : escapedBackslash ∈ tokenize "\"\\\\\"\"" := by
    rw [tokenize, Token.listOf, chars, Lexical.listFrom_cons (c := '"') rfl]
    exact List.mem_cons_self
  exact ⟨mem, rfl, literals_endAlike mem rfl⟩

end QueryDoc
