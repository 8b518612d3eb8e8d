import QueryDoc.Text.Char

/-!
# Escapes in single-line strings

The content of a single-line string is a sequence of units. A unit is a
character other than a backslash, one of the eight short escapes, or four
hexadecimal digits after `\u`. Two such escapes that form a surrogate pair are
one unit and denote one character; a surrogate without its partner denotes
nothing and is an error.

Writing goes the other way and uses the shortest unit of each character that
may not stand for itself.
-/
namespace QueryDoc

/-- Why a string literal has no value. -/
inductive StringError where
  /-- A backslash with no escape after it; carries the text read. -/
  | invalidEscape (text : String)
  /-- The closing quote is missing. -/
  | unterminated
  /-- Four digits are missing after `\u`, or they name half of a pair. -/
  | invalidUnicode (text : String)
deriving DecidableEq, Repr

def StringError.message : StringError → String
  | .invalidEscape text => "Invalid escape sequence: `" ++ text ++ "`"
  | .unterminated => "Unterminated string: missing closing quote"
  | .invalidUnicode text => "Invalid unicode escape: `" ++ text ++ "`"

namespace StringLiteral

/-- The number that a sequence of hexadecimal digits stands for. -/
def hexNumber (digits : List Char) : Nat := digits.foldl (fun n c => 16 * n + hexValue c) 0

/-- Reads four hexadecimal digits. An error cites the digits found and the
character that is none. -/
def readHex4 (cs : List Char) : Except StringError (Nat × List Char) :=
  let digits := (cs.take 4).takeWhile isHexDigit
  if digits.length = 4 then
    .ok (hexNumber digits, cs.drop 4)
  else
    .error (.invalidUnicode (String.ofList ('\\' :: 'u' :: cs.take (digits.length + 1))))

def isHighSurrogate (n : Nat) : Bool := 0xD800 ≤ n && n ≤ 0xDBFF

def isLowSurrogate (n : Nat) : Bool := 0xDC00 ≤ n && n ≤ 0xDFFF

/-- The character that a surrogate pair stands for. -/
def combineSurrogates (high low : Nat) : Char :=
  Char.ofNat (0x10000 + (high - 0xD800) * 0x400 + (low - 0xDC00))

/-- The error of a surrogate without its partner. -/
def loneSurrogate (n : Nat) : StringError := .invalidUnicode ("\\u" ++ codePoint n)

/-- Reads what follows `\u`: one code unit, or two that form a pair. -/
def readUnicode (cs : List Char) : Except StringError (Char × List Char) :=
  match readHex4 cs with
  | .error e => .error e
  | .ok (unit, rest) =>
    if isHighSurrogate unit then
      match rest with
      | '\\' :: 'u' :: more =>
        match readHex4 more with
        | .error e => .error e
        | .ok (low, rest') =>
          if isLowSurrogate low then .ok (combineSurrogates unit low, rest')
          else .error (loneSurrogate unit)
      | _ => .error (loneSurrogate unit)
    else if isLowSurrogate unit then .error (loneSurrogate unit)
    else .ok (Char.ofNat unit, rest)

/-- The character of a short escape, by the character after its backslash. -/
def shortEscape? : Char → Option Char
  | '"' => some '"'
  | '\\' => some '\\'
  | '/' => some '/'
  | 'b' => some '\x08'
  | 'f' => some '\x0c'
  | 'n' => some '\n'
  | 'r' => some '\r'
  | 't' => some '\t'
  | _ => none

/-- Reads the unit that starts with `c`. -/
def readUnit (c : Char) (cs : List Char) : Except StringError (Char × List Char) :=
  if c = '\\' then
    match cs with
    | [] => .error (.invalidEscape "\\")
    | 'u' :: rest => readUnicode rest
    | e :: rest =>
      match shortEscape? e with
      | some x => .ok (x, rest)
      | none => .error (.invalidEscape (String.ofList ['\\', e]))
  else .ok (c, cs)

theorem length_of_readHex4 {cs rest : List Char} {n : Nat}
    (h : readHex4 cs = .ok (n, rest)) : rest.length ≤ cs.length := by
  simp only [readHex4] at h
  split at h
  · obtain ⟨-, rfl⟩ := by simpa using h
    simp
  · cases h

theorem length_of_readUnicode {cs rest : List Char} {x : Char}
    (h : readUnicode cs = .ok (x, rest)) : rest.length ≤ cs.length := by
  unfold readUnicode at h
  split at h
  · cases h
  · rename_i unit tail hu
    have hl := length_of_readHex4 hu
    split at h
    · split at h
      · rename_i more
        split at h
        · cases h
        · rename_i low tail' hm
          have hm' := length_of_readHex4 hm
          split at h
          · obtain ⟨-, rfl⟩ := by simpa using h
            simp only [List.length_cons] at hl
            omega
          · cases h
      · cases h
    · split at h
      · cases h
      · obtain ⟨-, rfl⟩ := by simpa using h
        exact hl

/-- A unit takes the character that it starts with at least. -/
theorem length_of_readUnit {c x : Char} {cs rest : List Char}
    (h : readUnit c cs = .ok (x, rest)) : rest.length ≤ cs.length := by
  unfold readUnit at h
  split at h
  · split at h
    · cases h
    · have := length_of_readUnicode h
      simp only [List.length_cons]
      omega
    · split at h
      · cases h
        simp
      · cases h
  · cases h
    exact Nat.le_refl _

/-- The characters that a sequence of units denotes. -/
def readUnits (cs : List Char) : Except StringError (List Char) :=
  match cs with
  | [] => .ok []
  | c :: cs =>
    match _h : readUnit c cs with
    | .error e => .error e
    | .ok (x, rest) =>
      match readUnits rest with
      | .error e => .error e
      | .ok xs => .ok (x :: xs)
termination_by cs.length
decreasing_by
  have := length_of_readUnit _h
  simp only [List.length_cons]
  omega

/-- The characters that the content of a single-line string denotes. A content without a
backslash is not looked at any further. -/
def unescape (cs : List Char) : Except StringError (List Char) :=
  if '\\' ∈ cs then readUnits cs else .ok cs

theorem readUnits_of_not_mem {cs : List Char} (h : '\\' ∉ cs) : readUnits cs = .ok cs := by
  induction cs with
  | nil => rw [readUnits]
  | cons c cs ih =>
    obtain ⟨hc, hcs⟩ := not_or.1 (mt List.mem_cons.2 h)
    have hread : readUnit c cs = .ok (c, cs) := if_neg (Ne.symm hc)
    rw [readUnits, hread]
    simp only [ih hcs]

theorem unescape_eq_readUnits (cs : List Char) : unescape cs = readUnits cs := by
  unfold unescape
  split
  · rfl
  · rename_i h
    exact (readUnits_of_not_mem h).symm

/-- How a character is written between quotes. -/
def escapeChar (c : Char) : List Char :=
  if c = '"' then ['\\', '"']
  else if c = '\\' then ['\\', '\\']
  else if c = '\x08' then ['\\', 'b']
  else if c = '\x0c' then ['\\', 'f']
  else if c = '\n' then ['\\', 'n']
  else if c = '\r' then ['\\', 'r']
  else if c = '\t' then ['\\', 't']
  else if c.toNat < 0x20 then '\\' :: 'u' :: hexDigits4 c.toNat
  else [c]

/-- A single-line literal for the given characters. -/
def quote (cs : List Char) : List Char := '"' :: (cs.flatMap escapeChar ++ ['"'])

end StringLiteral

end QueryDoc
