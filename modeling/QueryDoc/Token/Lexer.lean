import QueryDoc.Token.Scan

/-!
# The tokens of a text

Lexing alternates between two steps until the text is used up: skip what is
insignificant, then cut off one unit. White space, commas, byte order marks and
comments are insignificant. A comment ends in front of the end of its line. The
list of tokens always ends with the token for the end of input, and lexing
never stops early, because text that forms no unit is a token as well.
-/
namespace QueryDoc

/-- Splits off the insignificant characters in front. The flag says that the
text starts inside a comment. -/
def splitIgnored : Bool → List Char → List Char × List Char
  | _, [] => ([], [])
  | true, c :: cs =>
    let r := splitIgnored (!isLineEnd c) cs
    (c :: r.1, r.2)
  | false, c :: cs =>
    if isInsignificant c then
      let r := splitIgnored false cs
      (c :: r.1, r.2)
    else if c = '#' then
      let r := splitIgnored true cs
      (c :: r.1, r.2)
    else ([], c :: cs)

theorem splitIgnored_append (inComment : Bool) (cs : List Char) :
    (splitIgnored inComment cs).1 ++ (splitIgnored inComment cs).2 = cs := by
  fun_induction splitIgnored inComment cs <;> simp_all +zetaDelta

theorem length_splitIgnored_le (inComment : Bool) (cs : List Char) :
    (splitIgnored inComment cs).2.length ≤ cs.length := by
  have h := congrArg List.length (splitIgnored_append inComment cs)
  rw [List.length_append] at h
  omega

namespace Reading

/-- Reads what was skipped. A comment is taken as a whole. -/
def throughIgnored (r : Reading) : List Char → Reading
  | [] => r
  | c :: cs =>
    if c = '#' then
      (r.segment (c :: cs.takeWhile (!isLineEnd ·))).throughIgnored
        (cs.dropWhile (!isLineEnd ·))
    else (r.step c).throughIgnored cs
termination_by cs => cs.length
decreasing_by
  · exact Nat.lt_succ_of_le (List.dropWhile_suffix _).length_le
  · exact Nat.lt_succ_self _

/-- What a string literal may hold in a run: no quote, no backslash, no line end. -/
def isStringRun (c : Char) : Bool := c != '"' && c != '\\' && !isLineEnd c

/-- Reads a single-line string after its opening quote. Runs are taken as a whole;
a backslash and the character after it stand apart from them. -/
def throughQuoted (r : Reading) : List Char → Reading
  | [] => r
  | '\\' :: c :: cs => ((r.step '\\').step c).throughQuoted cs
  | c :: cs =>
    if isStringRun c then
      (r.segment (c :: cs.takeWhile isStringRun)).throughQuoted (cs.dropWhile isStringRun)
    else (r.step c).throughQuoted cs
termination_by cs => cs.length
decreasing_by
  · exact Nat.lt_succ_of_lt (Nat.lt_succ_self _)
  · exact Nat.lt_succ_of_le (List.dropWhile_suffix _).length_le
  · exact Nat.lt_succ_self _

/-- Reads a block string after its opening quotes. Runs are taken as a whole. -/
def throughBlock (r : Reading) : List Char → Reading
  | [] => r
  | c :: cs =>
    if isStringRun c then
      (r.segment (c :: cs.takeWhile isStringRun)).throughBlock (cs.dropWhile isStringRun)
    else (r.step c).throughBlock cs
termination_by cs => cs.length
decreasing_by
  · exact Nat.lt_succ_of_le (List.dropWhile_suffix _).length_le
  · exact Nat.lt_succ_self _

/-- Reads the text of a unit. A name is taken as a whole. -/
def throughUnit (r : Reading) : List Char → Reading
  | '"' :: '"' :: '"' :: cs => (r.through ['"', '"', '"']).throughBlock cs
  | '"' :: cs => (r.step '"').throughQuoted cs
  | c :: cs => if isNameStart c then r.segment (c :: cs) else r.through (c :: cs)
  | [] => r

end Reading

namespace Token

/-- The tokens of the characters left when the text has been read up to `r`. -/
def listFrom (r : Reading) (cs : List Char) : List Token :=
  let start := r.throughIgnored (splitIgnored false cs).1
  match _h : (splitIgnored false cs).2 with
  | [] => [⟨.endOfInput, .emptyAt start.position⟩]
  | c :: rest =>
    let s := Scan.next c rest
    let stop := start.throughUnit s.text
    ⟨s.lexeme.toKind start.position s.text, ⟨start.position, stop.position⟩⟩ ::
      listFrom stop s.rest
termination_by cs.length
decreasing_by
  have h1 := Scan.length_next_rest_lt c rest
  have h2 := length_splitIgnored_le false cs
  rw [_h] at h2
  omega

/-- The tokens of a text, the end of input included. -/
def listOf (cs : List Char) : List Token := listFrom .start cs

end Token

/-- The tokens of the body of a source. -/
def tokenize (body : String) : List Token := Token.listOf body.toList

end QueryDoc
