import QueryDoc.Token
import QueryDoc.Text.Line

/-!
# Scanning one lexical unit

Each scanner takes the characters that are left, cuts off the text of one unit
and says what the unit is. No scanner fails: text that forms no unit is cut off
too, together with the reason. Cutting loses nothing, the text and the rest put
together are the input again, and the text is never empty. Scanners know nothing
of positions, so a unit depends only on the characters from its start on.
-/
namespace QueryDoc

/-- Why some text forms no lexical unit. -/
inductive LexicalFault where
  | singleDot
  /-- Two dots; the flag says that they are adjacent. -/
  | twoDots (adjacent : Bool)
  /-- Three dots, where the flags say which neighbours are adjacent; not both are. -/
  | threeDots (firstAdjacent secondAdjacent : Bool)
  | loneMinus
  | fractionWithoutDigits (text : String)
  | exponentWithoutDigits (text : String)
  | stringAtEnd
  | stringAtLineEnd
  | blockAtEnd
  | character (c : Char)
deriving DecidableEq, Repr

namespace LexicalFault

def message : LexicalFault → String
  | .singleDot => "Unexpected `.`"
  | .twoDots true => "Unexpected `..` (use `...` for spread operator)"
  | .twoDots false => "Unexpected `. .` (use `...` for spread operator)"
  | .threeDots true _ => "Unexpected `.. .`"
  | .threeDots false true => "Unexpected `. ..`"
  | .threeDots false false => "Unexpected `. . .`"
  | .loneMinus => "Unexpected `-`"
  | .fractionWithoutDigits text => "Invalid number: expected digit after `.`: `" ++ text ++ "`"
  | .exponentWithoutDigits text =>
    "Invalid number: exponent must have at least one digit: `" ++ text ++ "`"
  | .stringAtEnd => "Unterminated string literal"
  | .stringAtLineEnd => "Unterminated string literal"
  | .blockAtEnd => "Unterminated block string"
  | .character c => "Unexpected character " ++ describeChar c

/-- Advice on dots that stand apart. -/
def closeUpDots : Note :=
  .help ("These dots may have been intended to form a `...` spread operator. Try " ++
    "removing the extra spacing between the dots.")

/-- Where the language specification defines numbers with a fraction. -/
def floatRule : Note := .spec "https://spec.graphql.org/October2021/#sec-Float-Value"

/-- The notes on a fault in text that starts at `start`. -/
def notes (start : Position) : LexicalFault → List Note
  | .singleDot => []
  | .twoDots true => [.help "Add one more `.` to form the spread operator `...`"]
  | .twoDots false => [closeUpDots]
  | .threeDots true _ =>
    [.help ("This `.` may have been intended to complete a `...` spread operator. " ++
      "Try removing the extra spacing between the dots.")]
  | .threeDots false _ => [closeUpDots]
  | .loneMinus => []
  | .fractionWithoutDigits _ => [floatRule]
  | .exponentWithoutDigits _ => [floatRule]
  | .stringAtEnd =>
    [.pointing "String started here" (.emptyAt start), .help "Add closing `\"`"]
  | .stringAtLineEnd =>
    [.general "Single-line strings cannot contain unescaped newlines",
      .help ("Use a block string (triple quotes) for multi-line strings, " ++
        "or escape the newline with `\\n`")]
  | .blockAtEnd =>
    [.pointing "Block string started here" (.emptyAt start), .help "Add closing `\"\"\"`"]
  | .character _ => []

end LexicalFault

/-- What a scanner recognised; the text itself stands beside it. -/
inductive Lexeme where
  | punctuator (p : Punctuator)
  | name
  | int
  | float
  | string
  | fault (f : LexicalFault)
deriving DecidableEq, Repr

/-- The kind of the token that a lexeme and its text form. -/
def Lexeme.toKind (start : Position) (text : List Char) : Lexeme → TokenKind
  | .punctuator p => .punctuator p
  | .name =>
    if text = "true".toList then .boolean true
    else if text = "false".toList then .boolean false
    else if text = "null".toList then .null
    else .name (String.ofList text)
  | .int => .int (String.ofList text)
  | .float => .float (String.ofList text)
  | .string => .string (String.ofList text)
  | .fault f => .error f.message (f.notes start)

/-- One unit cut off the front of a text. -/
structure Scan where
  lexeme : Lexeme
  text : List Char
  rest : List Char

namespace Scan

/-- Counts a character in front as part of the unit. -/
def push (c : Char) (s : Scan) : Scan := { s with text := c :: s.text }

/-- One or more dots; `cs` follows the first. -/
def dots (cs : List Char) : Scan :=
  let gap := cs.takeWhile isSpacing
  match cs.dropWhile isSpacing with
  | '.' :: ds =>
    let gap' := ds.takeWhile isSpacing
    match ds.dropWhile isSpacing with
    | '.' :: rest =>
      let lexeme :=
        if gap.isEmpty && gap'.isEmpty then .punctuator .ellipsis
        else .fault (.threeDots gap.isEmpty gap'.isEmpty)
      ⟨lexeme, '.' :: (gap ++ '.' :: (gap' ++ ['.'])), rest⟩
    | rest => ⟨.fault (.twoDots gap.isEmpty), '.' :: (gap ++ '.' :: gap'), rest⟩
  | rest => ⟨.fault .singleDot, '.' :: gap, rest⟩

/-- A name, the longest run of name characters. -/
def name (cs : List Char) : Scan :=
  ⟨.name, cs.takeWhile isNameContinue, cs.dropWhile isNameContinue⟩

/-- What a broken number swallows after the place where it broke. -/
def isNumberTail (c : Char) : Bool :=
  c.isDigit || c == 'e' || c == 'E' || c == '+' || c == '-'

/-- The broken number that starts with `text`. -/
def brokenNumber (fault : String → LexicalFault) (text cs : List Char) : Scan :=
  let text := text ++ cs.takeWhile isNumberTail
  ⟨.fault (fault (String.ofList text)), text, cs.dropWhile isNumberTail⟩

def startsWithDigit : List Char → Bool
  | c :: _ => c.isDigit
  | [] => false

/-- Splits off a sign, if there is one. -/
def splitSign : List Char → List Char × List Char
  | c :: cs => if c = '+' ∨ c = '-' then ([c], cs) else ([], c :: cs)
  | [] => ([], [])

/-- The end of a number after its digits and fraction, `text` so far. -/
def exponent (lexeme : Lexeme) (text cs : List Char) : Scan :=
  match cs with
  | c :: ds =>
    if c = 'e' ∨ c = 'E' then
      let text := text ++ c :: (splitSign ds).1
      let digits := (splitSign ds).2
      if startsWithDigit digits then
        ⟨.float, text ++ digits.takeWhile Char.isDigit, digits.dropWhile Char.isDigit⟩
      else brokenNumber .exponentWithoutDigits text digits
    else ⟨lexeme, text, cs⟩
  | [] => ⟨lexeme, text, cs⟩

/-- The end of a number after the digits before the point, `text` so far. -/
def fraction (text cs : List Char) : Scan :=
  match cs with
  | '.' :: ds =>
    if startsWithDigit ds then
      exponent .float (text ++ '.' :: ds.takeWhile Char.isDigit) (ds.dropWhile Char.isDigit)
    else brokenNumber .fractionWithoutDigits (text ++ ['.']) ds
  | _ => exponent .int text cs

/-- A number; `sign` stands before its first digit. -/
def number (sign cs : List Char) : Scan :=
  if startsWithDigit cs then
    fraction (sign ++ cs.takeWhile Char.isDigit) (cs.dropWhile Char.isDigit)
  else ⟨.fault .loneMinus, sign, cs⟩

/-- A single-line string after its opening quote. A backslash pairs with the
character after it, unless that ends the line. -/
def quoted : List Char → Scan
  | [] => ⟨.fault .stringAtEnd, [], []⟩
  | '"' :: cs => ⟨.string, ['"'], cs⟩
  | '\\' :: c :: cs =>
    if isLineEnd c then (quoted (c :: cs)).push '\\' else ((quoted cs).push c).push '\\'
  | c :: cs => if isLineEnd c then ⟨.fault .stringAtLineEnd, [], c :: cs⟩ else (quoted cs).push c

/-- A block string after its opening quotes. -/
def block : List Char → Scan
  | [] => ⟨.fault .blockAtEnd, [], []⟩
  | '\\' :: '"' :: '"' :: '"' :: cs =>
    ((((block cs).push '"').push '"').push '"').push '\\'
  | '"' :: '"' :: '"' :: cs => ⟨.string, ['"', '"', '"'], cs⟩
  | c :: cs => (block cs).push c

/-- A string; `cs` follows its first quote. -/
def string : List Char → Scan
  | '"' :: '"' :: cs => (((block cs).push '"').push '"').push '"'
  | cs => (quoted cs).push '"'

/-- The punctuator of one character. -/
def punctuator? : Char → Option Punctuator
  | '!' => some .bang
  | '$' => some .dollar
  | '(' => some .openParen
  | ')' => some .closeParen
  | ':' => some .colon
  | '=' => some .equals
  | '@' => some .at
  | '[' => some .openBracket
  | ']' => some .closeBracket
  | '\x7b' => some .openBrace
  | '\x7d' => some .closeBrace
  | _ => none

/-- The unit that starts with the character `c`. -/
def next (c : Char) (cs : List Char) : Scan :=
  match punctuator? c with
  | some p => ⟨.punctuator p, [c], cs⟩
  | none =>
    if c = '.' then dots cs
    else if c = '"' then string cs
    else if isNameStart c then name (c :: cs)
    else if c = '-' then number ['-'] cs
    else if c.isDigit then number [] (c :: cs)
    else ⟨.fault (.character c), [c], cs⟩

/-! ## Nothing is lost -/

@[simp] theorem push_text (c : Char) (s : Scan) : (s.push c).text = c :: s.text := rfl

@[simp] theorem push_rest (c : Char) (s : Scan) : (s.push c).rest = s.rest := rfl

theorem dots_append (cs : List Char) : (dots cs).text ++ (dots cs).rest = '.' :: cs := by
  have h := List.takeWhile_append_dropWhile (p := isSpacing) (l := cs)
  unfold dots
  split
  · rename_i ds hd
    have h' := List.takeWhile_append_dropWhile (p := isSpacing) (l := ds)
    rw [hd] at h
    split
    · rename_i rest hr
      rw [hr] at h'
      simp only [List.cons_append, List.append_assoc, List.nil_append]
      rw [h', h]
    · simp only [List.cons_append, List.append_assoc]
      rw [h', h]
  · simp only [List.cons_append]
    rw [h]

theorem brokenNumber_append (f : String → LexicalFault) (text cs : List Char) :
    (brokenNumber f text cs).text ++ (brokenNumber f text cs).rest = text ++ cs := by
  simp [brokenNumber, List.append_assoc]

theorem splitSign_append (cs : List Char) : (splitSign cs).1 ++ (splitSign cs).2 = cs := by
  cases cs with
  | nil => rfl
  | cons c cs => by_cases h : c = '+' ∨ c = '-' <;> simp [splitSign, h]

theorem exponent_append (l : Lexeme) (text cs : List Char) :
    (exponent l text cs).text ++ (exponent l text cs).rest = text ++ cs := by
  unfold exponent
  split
  · rename_i c ds
    split
    · have h := splitSign_append ds
      simp only
      split
      · simp [List.append_assoc, h]
      · simp [brokenNumber_append, List.append_assoc, h]
    · rfl
  · rfl

theorem fraction_append (text cs : List Char) :
    (fraction text cs).text ++ (fraction text cs).rest = text ++ cs := by
  unfold fraction
  split
  · split
    · rw [exponent_append]
      simp [List.append_assoc]
    · rw [brokenNumber_append]
      simp
  · rw [exponent_append]

theorem number_append (sign cs : List Char) :
    (number sign cs).text ++ (number sign cs).rest = sign ++ cs := by
  unfold number
  split
  · rw [fraction_append]
    simp [List.append_assoc]
  · rfl

theorem quoted_append (cs : List Char) : (quoted cs).text ++ (quoted cs).rest = cs := by
  fun_induction quoted cs <;> simp_all

theorem block_append (cs : List Char) : (block cs).text ++ (block cs).rest = cs := by
  fun_induction block cs <;> simp_all

theorem string_append (cs : List Char) : (string cs).text ++ (string cs).rest = '"' :: cs := by
  unfold string
  split
  · simp [block_append]
  · simp [quoted_append]

/-- A unit and what follows it make up the text it was cut from. -/
theorem next_append (c : Char) (cs : List Char) :
    (next c cs).text ++ (next c cs).rest = c :: cs := by
  unfold next
  split
  · rfl
  · split
    · subst c
      exact dots_append cs
    · split
      · subst c
        exact string_append cs
      · split
        · simp [name]
        · split
          · subst c
            exact number_append ['-'] cs
          · split
            · exact number_append [] (c :: cs)
            · rfl

theorem number_text_ne_nil {sign cs : List Char}
    (h : sign ≠ [] ∨ startsWithDigit cs = true) : (number sign cs).text ≠ [] := by
  have he : ∀ l (t ds : List Char), t ≠ [] → (exponent l t ds).text ≠ [] := by
    intro l t ds ht
    unfold exponent
    split
    · split
      · simp only
        split <;> simp [brokenNumber, ht]
      · exact ht
    · exact ht
  unfold number
  split
  · rename_i hd
    have ht : sign ++ cs.takeWhile Char.isDigit ≠ [] := by
      cases cs with
      | nil => simp [startsWithDigit] at hd
      | cons c cs =>
        have hc : c.isDigit = true := hd
        simp [hc]
    unfold fraction
    split
    · split
      · exact he _ _ _ (by simp)
      · simp [brokenNumber]
    · exact he _ _ _ ht
  · rename_i hd
    simpa [hd] using h

/-- A unit has at least one character. -/
theorem next_text_ne_nil (c : Char) (cs : List Char) : (next c cs).text ≠ [] := by
  unfold next
  split
  · simp
  · split
    · unfold dots
      split
      · split <;> simp
      · simp
    · split
      · unfold string
        split <;> simp
      · split
        · rename_i hc
          have : isNameContinue c = true := by
            simp only [isNameStart, isNameContinue, Char.isAlphanum, Bool.or_eq_true] at hc ⊢
            exact hc.imp .inl id
          simp [name, this]
        · split
          · exact number_text_ne_nil (.inl (by simp))
          · split
            · rename_i hd
              exact number_text_ne_nil (.inr hd)
            · simp

theorem length_next_rest_lt (c : Char) (cs : List Char) :
    (next c cs).rest.length < (c :: cs).length := by
  have h := congrArg List.length (next_append c cs)
  have hne := List.length_pos_iff.2 (next_text_ne_nil c cs)
  rw [List.length_append] at h
  omega

end Scan

end QueryDoc
