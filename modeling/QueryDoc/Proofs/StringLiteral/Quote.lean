import QueryDoc.StringLiteral
import QueryDoc.Token.Scan
import Mathlib.Data.List.TakeWhile

/-!
# Single-line literals read back

A character between quotes is written as a short escape, as four digits, or as
itself. Each of the three is passed over whole by the scanner, which looks for
the closing quote, and is one unit for the decoder, which gives the character
again. A literal thus ends where it was closed and denotes what was quoted.
-/
namespace QueryDoc.StringLiteral

theorem isHexDigit_hexDigit : ∀ n < 16, isHexDigit (hexDigit n) = true := by decide

theorem hexValue_hexDigit : ∀ n < 16, hexValue (hexDigit n) = n := by decide

theorem isLineEnd_hexDigit : ∀ n < 16, isLineEnd (hexDigit n) = false := by decide

theorem hexDigit_ne : ∀ n < 16, hexDigit n ≠ '"' ∧ hexDigit n ≠ '\\' := by decide

theorem readHex4_hexDigits4 {n : Nat} (hn : n < 0x10000) (tail : List Char) :
    readHex4 (hexDigits4 n ++ tail) = .ok (n, tail) := by
  have hmod : ∀ m, m % 16 < 16 := fun m => Nat.mod_lt m (by decide)
  have hdigits : ∀ c ∈ hexDigits4 n, isHexDigit c = true := by
    intro c hc
    simp only [hexDigits4, List.mem_cons, List.not_mem_nil, or_false] at hc
    rcases hc with rfl | rfl | rfl | rfl <;> exact isHexDigit_hexDigit _ (hmod _)
  have htake : (hexDigits4 n ++ tail).take 4 = hexDigits4 n := rfl
  have hall : (hexDigits4 n).takeWhile isHexDigit = hexDigits4 n :=
    List.takeWhile_eq_self_iff.2 hdigits
  have hnumber : hexNumber (hexDigits4 n) = n := by
    simp only [hexNumber, hexDigits4, List.foldl_cons, List.foldl_nil,
      hexValue_hexDigit _ (hmod _)]
    omega
  simp only [readHex4, htake, hall, hnumber]
  rfl

/-- A character is written in one of three ways. -/
theorem escapeChar_cases (c : Char) :
    (∃ e, escapeChar c = ['\\', e] ∧ e ≠ 'u' ∧ shortEscape? e = some c ∧ isLineEnd e = false) ∨
      (escapeChar c = '\\' :: 'u' :: hexDigits4 c.toNat ∧ c.toNat < 0x20) ∨
      (escapeChar c = [c] ∧ c ≠ '"' ∧ c ≠ '\\' ∧ isLineEnd c = false) := by
  by_cases hc : c ∈ ['"', '\\', '\x08', '\x0c', '\n', '\r', '\t']
  · left
    simp only [List.mem_cons, List.not_mem_nil, or_false] at hc
    rcases hc with rfl | rfl | rfl | rfl | rfl | rfl | rfl <;>
      exact ⟨_, rfl, by decide, rfl, by decide⟩
  · right
    simp only [List.mem_cons, List.not_mem_nil, or_false, not_or] at hc
    obtain ⟨h1, h2, h3, h4, h5, h6, h7⟩ := hc
    have hescape : escapeChar c =
        if c.toNat < 0x20 then '\\' :: 'u' :: hexDigits4 c.toNat else [c] := by
      simp only [escapeChar, h1, h2, h3, h4, h5, h6, h7, if_false]
    by_cases hlow : c.toNat < 0x20
    · exact .inl ⟨by rw [hescape, if_pos hlow], hlow⟩
    · exact .inr ⟨by rw [hescape, if_neg hlow], h1, h2, by simp [isLineEnd, h5, h6]⟩

/-- What is written for a character stays on its line. -/
theorem isLineEnd_of_mem_escapeChar {c d : Char} (h : d ∈ escapeChar c) : isLineEnd d = false := by
  rcases escapeChar_cases c with ⟨e, he, -, -, hend⟩ | ⟨he, -⟩ | ⟨he, -, -, hend⟩
  · rw [he] at h
    simp only [List.mem_cons, List.not_mem_nil, or_false] at h
    rcases h with rfl | rfl
    · rfl
    · exact hend
  · have hdigit : ∀ n, isLineEnd (hexDigit (n % 16)) = false :=
      fun n => isLineEnd_hexDigit _ (Nat.mod_lt n (by decide))
    rw [he] at h
    simp only [hexDigits4, List.mem_cons, List.not_mem_nil, or_false] at h
    rcases h with rfl | rfl | rfl | rfl | rfl | rfl <;> first | rfl | exact hdigit _
  · rw [he] at h
    obtain rfl := List.mem_singleton.1 h
    exact hend

/-! ## Decoding -/

theorem readUnit_escapeChar (c : Char) (tail : List Char) :
    ∃ x xs, escapeChar c ++ tail = x :: xs ∧ readUnit x xs = .ok (c, tail) := by
  rcases escapeChar_cases c with ⟨e, he, hu, hshort, -⟩ | ⟨he, hlow⟩ | ⟨he, -, hslash, -⟩
  · refine ⟨'\\', e :: tail, by rw [he]; rfl, ?_⟩
    unfold readUnit
    rw [if_pos rfl]
    split
    · simp_all
    · simp_all
    · rename_i e' rest _ heq
      obtain ⟨rfl, rfl⟩ := List.cons.inj heq
      rw [hshort]
  · refine ⟨'\\', 'u' :: (hexDigits4 c.toNat ++ tail), by rw [he]; rfl, ?_⟩
    have hhigh : isHighSurrogate c.toNat = false := by
      simp only [isHighSurrogate, Bool.and_eq_false_iff, decide_eq_false_iff_not]
      omega
    have hlow' : isLowSurrogate c.toNat = false := by
      simp only [isLowSurrogate, Bool.and_eq_false_iff, decide_eq_false_iff_not]
      omega
    simp only [readUnit, if_true, readUnicode, readHex4_hexDigits4 (Nat.lt_trans hlow (by decide)),
      hhigh, hlow', Bool.false_eq_true, if_false, Char.ofNat_toNat]
  · refine ⟨c, tail, by rw [he]; rfl, ?_⟩
    unfold readUnit
    rw [if_neg hslash]

theorem unescape_escape (cs : List Char) : unescape (cs.flatMap escapeChar) = .ok cs := by
  rw [unescape_eq_readUnits]
  induction cs with
  | nil => simp [readUnits]
  | cons c cs ih =>
    obtain ⟨x, xs, heq, hread⟩ := readUnit_escapeChar c (cs.flatMap escapeChar)
    rw [List.flatMap_cons, heq, readUnits, hread]
    simp only [ih]

/-- What is written for a character does not start with a quote. -/
theorem escape_head {cs : List Char} (hne : cs ≠ []) (tail : List Char) :
    ∃ x xs, cs.flatMap escapeChar ++ tail = x :: xs ∧ x ≠ '"' := by
  cases cs with
  | nil => exact absurd rfl hne
  | cons c cs =>
    rw [List.flatMap_cons, List.append_assoc]
    rcases escapeChar_cases c with ⟨e, he, -⟩ | ⟨he, -⟩ | ⟨he, hquote, -⟩
    · exact ⟨'\\', _, by rw [he]; rfl, by decide⟩
    · exact ⟨'\\', _, by rw [he]; rfl, by decide⟩
    · exact ⟨c, _, by rw [he]; rfl, hquote⟩

theorem dropSuffix_append (ending cs : List Char) :
    dropSuffix? ending (cs ++ ending) = some cs := by
  rw [dropSuffix?, if_pos (by simp)]
  simp

/-- A text starts with three quotes only if it is a block literal. -/
theorem quote_cases (cs : List Char) :
    ∃ rest, quote cs = '"' :: rest ∧ (∀ more, rest ≠ '"' :: '"' :: more) := by
  refine ⟨_, rfl, ?_⟩
  intro more heq
  cases cs with
  | nil => simp at heq
  | cons c cs =>
    obtain ⟨x, xs, hx, hne⟩ := escape_head (List.cons_ne_nil c cs) ['"']
    rw [hx] at heq
    exact hne (List.cons.inj heq).1

theorem isBlock_quote (cs : List Char) : isBlock (quote cs) = false := by
  obtain ⟨rest, hq, hrest⟩ := quote_cases cs
  rw [hq, isBlock, tripleQuote, Bool.eq_false_iff]
  intro h
  obtain ⟨more, hmore⟩ := List.isPrefixOf_iff_prefix.1 h
  exact hrest more (List.cons.inj hmore).2.symm

/-- What is decoded of a literal that is no block string stands between its quotes. -/
theorem decode_line {content : List Char} (h : isBlock ('"' :: (content ++ ['"'])) = false) :
    decode ('"' :: (content ++ ['"'])) = unescape content := by
  unfold decode
  split
  · rename_i more heq
    rw [heq] at h
    cases h
  · rename_i rest _ heq
    rw [← (List.cons.inj heq).2, dropSuffix_append]
  · rename_i hquote
    exact absurd rfl (hquote _)

theorem decode_quote (cs : List Char) : decode (quote cs) = .ok cs :=
  (decode_line (isBlock_quote cs)).trans (unescape_escape cs)

end QueryDoc.StringLiteral

/-! ## Scanning -/

namespace QueryDoc.Scan
open StringLiteral

/-- Counts some characters in front as part of the unit. -/
def prepend (text : List Char) (s : Scan) : Scan := { s with text := text ++ s.text }

theorem quoted_plain {c : Char} (cs : List Char) (hquote : c ≠ '"') (hslash : c ≠ '\\')
    (hend : isLineEnd c = false) : quoted (c :: cs) = (quoted cs).push c := by
  rw [quoted]
  · simp [hend]
  · exact hquote
  · intro _ _ h
    exact absurd h hslash

theorem quoted_escapeChar (c : Char) (tail : List Char) :
    quoted (escapeChar c ++ tail) = (quoted tail).prepend (escapeChar c) := by
  rcases escapeChar_cases c with ⟨e, he, -, -, hend⟩ | ⟨he, -⟩ | ⟨he, hquote, hslash, hend⟩
  · rw [he]
    simp [quoted, hend, push, prepend]
  · have plain : ∀ n ds, quoted (hexDigit (n % 16) :: ds) = (quoted ds).push (hexDigit (n % 16)) :=
      fun n ds =>
        have hn := Nat.mod_lt n (by decide)
        quoted_plain ds (hexDigit_ne _ hn).1 (hexDigit_ne _ hn).2 (isLineEnd_hexDigit _ hn)
    rw [he]
    simp [quoted, plain, hexDigits4, push, prepend, isLineEnd]
  · rw [he]
    exact quoted_plain tail hquote hslash hend

theorem quoted_escape (cs rest : List Char) :
    quoted (cs.flatMap escapeChar ++ '"' :: rest) =
      ⟨.string, cs.flatMap escapeChar ++ ['"'], rest⟩ := by
  induction cs with
  | nil => rfl
  | cons c cs ih =>
    rw [List.flatMap_cons, List.append_assoc, quoted_escapeChar, ih]
    simp [prepend]

/-- A quoted text ends where it was closed, unless it is empty and a third quote
follows it. -/
theorem next_quote (cs rest : List Char) (hrest : rest.head? ≠ some '"') :
    next '"' (cs.flatMap escapeChar ++ '"' :: rest) = ⟨.string, quote cs, rest⟩ := by
  have hnext : next '"' (cs.flatMap escapeChar ++ '"' :: rest) =
      string (cs.flatMap escapeChar ++ '"' :: rest) := rfl
  rw [hnext]
  unfold string
  split
  · rename_i more heq
    cases cs with
    | nil =>
      obtain rfl := (List.cons.inj heq).2
      exact absurd rfl hrest
    | cons c cs =>
      obtain ⟨x, xs, hx, hne⟩ := escape_head (List.cons_ne_nil c cs) ('"' :: rest)
      rw [hx] at heq
      exact absurd (List.cons.inj heq).1 hne
  · rw [quoted_escape]
    rfl

end QueryDoc.Scan
