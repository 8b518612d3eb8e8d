/-!
# Classes of characters

The classes that the lexical grammar and its error messages speak of. Names,
numbers and the ignored characters are ASCII by definition, up to the byte
order mark. The white space and control classes are those of Unicode, because a
message describes any character that may stand in a document.
-/
namespace QueryDoc

/-- A letter of the Latin alphabet without marks, or an underscore. -/
def isNameStart (c : Char) : Bool := c.isAlpha || c == '_'

/-- What may follow the first character of a name. -/
def isNameContinue (c : Char) : Bool := c.isAlphanum || c == '_'

/-- Space, tab and byte order mark: what may stand between tokens of a line. -/
def isSpacing (c : Char) : Bool := c == ' ' || c == '\t' || c == '\uFEFF'

/-- A character that may stand between any two tokens. -/
def isInsignificant (c : Char) : Bool := isSpacing c || c == '\n' || c == '\r' || c == ','

/-- Space or tab: what indents a line of a block string. -/
def isBlank (c : Char) : Bool := c == ' ' || c == '\t'

/-- A hexadecimal digit of either case. -/
def isHexDigit (c : Char) : Bool :=
  c.isDigit || ('a' ≤ c && c ≤ 'f') || ('A' ≤ c && c ≤ 'F')

/-- The number that a hexadecimal digit stands for. -/
def hexValue (c : Char) : Nat :=
  if c.isDigit then c.toNat - '0'.toNat
  else if 'a' ≤ c && c ≤ 'f' then c.toNat - 'a'.toNat + 10
  else c.toNat - 'A'.toNat + 10

/-- The digit that stands for a number below sixteen. -/
def hexDigit (n : Nat) : Char :=
  if n < 10 then Char.ofNat ('0'.toNat + n) else Char.ofNat ('a'.toNat + (n - 10))

/-- The four lowest hexadecimal digits of a number, highest first. -/
def hexDigits4 (n : Nat) : List Char :=
  [hexDigit (n / 4096 % 16), hexDigit (n / 256 % 16), hexDigit (n / 16 % 16), hexDigit (n % 16)]

/-- A character spelled out: its code point as hexadecimal digits between braces. -/
def spelledOut (c : Char) : List Char :=
  ['\\', 'u', '\x7b'] ++ Nat.toDigits 16 c.toNat ++ ['\x7d']

/-- A code point as it is cited: at least four upper-case hexadecimal digits. -/
def codePoint (n : Nat) : String :=
  let digits := (Nat.toDigits 16 n).map Char.toUpper
  String.ofList (List.replicate (4 - digits.length) '0' ++ digits)

/-- The control characters of Unicode. -/
def isControl (c : Char) : Bool := c.toNat < 0x20 || (0x7F ≤ c.toNat && c.toNat < 0xA0)

/-- The white space of Unicode. -/
def isSpace (c : Char) : Bool :=
  let n := c.toNat
  (9 ≤ n && n ≤ 13) || n == 0x20 || n == 0x85 || n == 0xA0 || n == 0x1680 ||
    (0x2000 ≤ n && n ≤ 0x200A) || n == 0x2028 || n == 0x2029 || n == 0x202F || n == 0x205F ||
    n == 0x3000

/-- Names of the invisible characters that most often slip into a document. -/
def invisibleName? (c : Char) : Option String :=
  let n := c.toNat
  if n == 0x0000 then some "NULL"
  else if n == 0x0007 then some "BELL"
  else if n == 0x0008 then some "BACKSPACE"
  else if n == 0x000B then some "VERTICAL TAB"
  else if n == 0x000C then some "FORM FEED"
  else if n == 0x001B then some "ESCAPE"
  else if n == 0x007F then some "DELETE"
  else if n == 0x0085 then some "NEXT LINE"
  else if n == 0x00A0 then some "NO-BREAK SPACE"
  else if n == 0x00AD then some "SOFT HYPHEN"
  else if 0x2000 ≤ n && n ≤ 0x200A then some "TYPOGRAPHIC SPACE"
  else if n == 0x200B then some "ZERO WIDTH SPACE"
  else if n == 0x200C then some "ZERO WIDTH NON-JOINER"
  else if n == 0x200D then some "ZERO WIDTH JOINER"
  else if n == 0x200E then some "LEFT-TO-RIGHT MARK"
  else if n == 0x200F then some "RIGHT-TO-LEFT MARK"
  else if n == 0x2028 then some "LINE SEPARATOR"
  else if n == 0x2029 then some "PARAGRAPH SEPARATOR"
  else if 0x202A ≤ n && n ≤ 0x202E then some "BIDIRECTIONAL FORMATTING"
  else if n == 0x202F then some "NARROW NO-BREAK SPACE"
  else if n == 0x2060 then some "WORD JOINER"
  else if n == 0x3000 then some "IDEOGRAPHIC SPACE"
  else if n == 0xFFFE || n == 0xFFFF then some "NONCHARACTER"
  else none

/-- A character as a message shows it: in backticks, and with its code point
and its name, if it has one here, when a reader could not see it. -/
def describeChar (c : Char) : String :=
  let shown := "`" ++ c.toString ++ "`"
  match invisibleName? c with
  | some name => shown ++ " (U+" ++ codePoint c.toNat ++ ": " ++ name ++ ")"
  | none =>
    if isControl c || (isSpace c && c != ' ') then shown ++ " (U+" ++ codePoint c.toNat ++ ")"
    else shown

end QueryDoc
