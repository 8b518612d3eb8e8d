import QueryDoc.Proofs.Lexical.Origin
import QueryDoc.Text.Source
import Mathlib.Data.List.DropRight

/-!
# Positions are those of the text in front

The lexer tracks positions while it reads, one character after the other, with a bit
that is carried from each character to the next. What it arrives at can be said of the
text that has been read without any reading: its line ends are counted, where a carriage
return and a line feed right after it are one, and what stands after the last of them is
measured. Each step keeps this, so a run does. Tokens start and stop at such positions,
and what the notes of a lexical fault point at is the start of its token.
-/
namespace QueryDoc

/-- How many lines are ended in a text; a carriage return and a line feed right after it
end one. -/
def lineBreaks : List Char → Nat
  | [] => 0
  | '\r' :: '\n' :: cs => lineBreaks cs + 1
  | c :: cs => if isLineEnd c then lineBreaks cs + 1 else lineBreaks cs

/-- The characters after the last one that ends a line, all of them if there is none. -/
def lastLine (cs : List Char) : List Char := cs.rtakeWhile fun c => !isLineEnd c

/-- The position after a text, counted from the text alone. -/
def Position.measured (cs : List Char) : Position where
  line := lineBreaks cs
  column := (lastLine cs).length
  column16 := length16 (lastLine cs)
  offset := byteLength cs

/-! ## Line ends -/

theorem lineBreaks_cons {c : Char} {cs : List Char} (h : ¬ (c = '\r' ∧ cs.head? = some '\n')) :
    lineBreaks (c :: cs) = if isLineEnd c then lineBreaks cs + 1 else lineBreaks cs := by
  rw [lineBreaks]
  rintro more rfl rfl
  exact h ⟨rfl, rfl⟩

theorem lineBreaks_singleton (c : Char) : lineBreaks [c] = if isLineEnd c then 1 else 0 :=
  lineBreaks_cons fun h => nomatch h.2

/-- A line feed after a carriage return ends no further line. -/
theorem lineBreaks_concat (cs : List Char) (c : Char) :
    lineBreaks (cs ++ [c]) =
      if c = '\n' ∧ cs.getLast? = some '\r' then lineBreaks cs
      else if isLineEnd c then lineBreaks cs + 1 else lineBreaks cs := by
  induction cs using lineBreaks.induct with
  | case1 => simp [lineBreaks_singleton, lineBreaks]
  | case2 cs ih =>
    cases cs with
    | nil =>
      rw [if_neg (by simp)]
      simp only [List.cons_append, List.nil_append, lineBreaks, lineBreaks_singleton]
      split_ifs <;> rfl
    | cons d ds =>
      simp only [List.cons_append, lineBreaks, List.getLast?_cons_cons] at ih ⊢
      rw [ih]
      split_ifs <;> rfl
  | case3 d cs hd _ ih | case4 d cs hd _ ih =>
    cases cs with
    | nil =>
      rw [List.singleton_append, List.getLast?_singleton, lineBreaks_singleton d]
      by_cases h : d = '\r' ∧ c = '\n'
      · obtain ⟨rfl, rfl⟩ := h
        rfl
      · have hfeed : ¬ (c = '\n' ∧ some d = some '\r') :=
          fun ⟨hc, hd⟩ => h ⟨Option.some.inj hd, hc⟩
        rw [lineBreaks_cons (by simpa using h), lineBreaks_singleton, if_neg hfeed]
        split_ifs <;> rfl
    | cons e es =>
      have hpair : ¬ (d = '\r' ∧ (e :: es).head? = some '\n') := by
        rintro ⟨rfl, he⟩
        exact hd es rfl (by rw [Option.some.inj he])
      rw [List.cons_append, lineBreaks_cons hpair, lineBreaks_cons (by exact hpair), ih,
        List.getLast?_cons_cons]
      split_ifs <;> rfl

theorem lastLine_concat (cs : List Char) (c : Char) :
    lastLine (cs ++ [c]) = if isLineEnd c then [] else lastLine cs ++ [c] := by
  rw [lastLine, List.rtakeWhile_concat, lastLine]
  cases isLineEnd c <;> rfl

theorem lastLine_of_getLast? {cs : List Char} {c : Char} (h : cs.getLast? = some c)
    (hc : isLineEnd c = true) : lastLine cs = [] := by
  obtain ⟨ds, rfl⟩ := List.getLast?_eq_some_iff.1 h
  rw [lastLine_concat, if_pos hc]

theorem length16_concat (cs : List Char) (c : Char) :
    length16 (cs ++ [c]) = length16 cs + units16 c := by
  induction cs with
  | nil => simp [length16]
  | cons d ds ih => rw [List.cons_append, length16, length16, ih, Nat.add_assoc]

/-! ## Reading -/

namespace Reading

/-- How far a text has been read, told from the text alone. -/
def measured (cs : List Char) : Reading := ⟨.measured cs, cs.getLast? == some '\r'⟩

theorem measured_step (cs : List Char) (c : Char) :
    (measured cs).step c = measured (cs ++ [c]) := by
  have hoffset : byteLength (cs ++ [c]) = byteLength cs + c.utf8Size := by
    simp [byteLength]
  simp only [step, measured, Position.measured, lineBreaks_concat, lastLine_concat, hoffset,
    List.getLast?_concat, beq_iff_eq]
  by_cases hpair : c = '\n' ∧ cs.getLast? = some '\r'
  · obtain ⟨rfl, hreturn⟩ := hpair
    -- the carriage return in front has set the columns back already
    simp [hreturn, lastLine_of_getLast? hreturn (by decide), length16, isLineEnd]
  · rw [if_neg hpair, if_neg hpair]
    by_cases hfeed : c = '\n'
    · simp [hfeed, length16, isLineEnd]
    · by_cases hreturn : c = '\r'
      · simp [hreturn, length16, isLineEnd]
      · simp [hfeed, hreturn, length16_concat, isLineEnd]

theorem measured_through (cs ds : List Char) :
    (measured cs).through ds = measured (cs ++ ds) := by
  induction ds generalizing cs with
  | nil => rw [through_nil, List.append_nil]
  | cons d ds ih => rw [through_cons, measured_step, ih, List.append_assoc, List.singleton_append]

end Reading

/-- The position that is tracked over a text is the one that is counted from it. -/
theorem Position.after_eq_measured (cs : List Char) : after cs = measured cs :=
  congrArg Reading.position (Reading.measured_through [] cs)

/-! ## Tokens -/

/-- The two ends of a span. -/
def Span.ends (s : Span) : List Position := [s.start, s.stop]

/-- The spans that the notes of a token point at. -/
def TokenKind.noteSpans : TokenKind → List Span
  | .error _ notes => notes.filterMap Note.span
  | _ => []

/-- All positions of a token, those in its notes included. -/
def Token.positions (t : Token) : List Position :=
  (t.span :: t.kind.noteSpans).flatMap Span.ends

/-- A note on a fault points at its start, if at anything. -/
theorem LexicalFault.span_note (start : Position) (f : LexicalFault) :
    ∀ n ∈ f.notes start, n.span = none ∨ n.span = some (.emptyAt start) := by
  fun_cases notes start f <;>
    simp [Note.help, Note.pointing, Note.general, Note.spec, closeUpDots, floatRule]

theorem Lexeme.noteSpans_eq (start : Position) (text : List Char) (l : Lexeme) :
    ∀ s ∈ (l.toKind start text).noteSpans, s = .emptyAt start := by
  cases l with
  | fault f =>
    intro s hs
    obtain ⟨n, hn, hspan⟩ := List.mem_filterMap.1 hs
    rcases f.span_note start n hn with hnone | hstart
    · rw [hnone] at hspan
      cases hspan
    · exact Option.some.inj (hspan.symm.trans hstart)
  | name =>
    simp only [toKind]
    split_ifs <;> simp [TokenKind.noteSpans]
  | _ => simp [toKind, TokenKind.noteSpans]

/-- The notes of a token point at its start. -/
theorem Token.ComesFrom.noteSpans_eq {body before left : List Char} {t : Token}
    (h : t.ComesFrom body before left) : ∀ s ∈ t.kind.noteSpans, s = .emptyAt t.span.start := by
  cases h with
  | unit => exact Lexeme.noteSpans_eq _ _ _
  | ending => exact fun s hs => nomatch hs

/-- Every position of a token stands after some of the body. -/
theorem Token.ComesFrom.exists_after {body before left : List Char} {t : Token}
    (h : t.ComesFrom body before left) {p : Position} (hp : p ∈ t.positions) :
    ∃ front back, body = front ++ back ∧ p = .after front := by
  have hends : p = t.span.start ∨ p = t.span.stop := by
    simp only [positions, List.flatMap_cons, List.mem_append, List.mem_flatMap] at hp
    rcases hp with hp | ⟨s, hs, hp⟩
    · simpa [Span.ends] using hp
    · rw [h.noteSpans_eq s hs] at hp
      exact .inl (by simpa [Span.ends, Span.emptyAt] using hp)
  rcases hends with rfl | rfl
  · exact ⟨before, left, h.body_eq, h.start_eq⟩
  · obtain ⟨text, rest, hleft, hstop⟩ := h.exists_stop
    exact ⟨before ++ text, rest, by rw [h.body_eq, hleft, List.append_assoc], hstop⟩

/-- **Position tracking is exact.** Wherever a token of a body or a note on it starts or
stops, the position is what is counted from the bytes of the body in front of it: the lines
that end there, the characters and the UTF-16 units after the last line end, and the bytes. -/
theorem positions_exact {body : String} {t : Token} (ht : t ∈ tokenize body) {p : Position}
    (hp : p ∈ t.positions) :
    ∃ before, takeBytes p.offset body.toList = some before ∧ p = .measured before := by
  obtain ⟨_, _, origin⟩ := tokenize_comesFrom body t ht
  obtain ⟨front, back, hbody, rfl⟩ := origin.exists_after hp
  rw [Position.after_eq_measured]
  refine ⟨front, ?_, rfl⟩
  rw [hbody]
  exact takeBytes_append front back

/-- A string that is left open, after a line end of two characters and a character of two
UTF-16 units. -/
def openString : Token :=
  ⟨.error LexicalFault.stringAtEnd.message (LexicalFault.stringAtEnd.notes ⟨1, 1, 2, 6⟩),
    ⟨⟨1, 1, 2, 6⟩, ⟨1, 2, 3, 7⟩⟩⟩

theorem openString_positions :
    openString ∈ tokenize "\r\n😀\"" ∧ openString.kind.noteSpans = [.emptyAt ⟨1, 1, 2, 6⟩] ∧
      ⟨1, 1, 2, 6⟩ ∈ openString.positions ∧
      ∃ before, takeBytes 6 "\r\n😀\"".toList = some before ∧
        (⟨1, 1, 2, 6⟩ : Position) = .measured before := by
  have chars : "\r\n😀\"".toList = ['\r', '\n', '😀', '"'] := by decide
  have tokens : tokenize "\r\n😀\"" =
      [⟨.error (LexicalFault.character '😀').message [], ⟨⟨1, 0, 0, 2⟩, ⟨1, 1, 2, 6⟩⟩⟩,
        openString, ⟨.endOfInput, .emptyAt ⟨1, 2, 3, 7⟩⟩] := by
    rw [tokenize, Token.listOf, chars, Lexical.listFrom_cons (c := '😀') rfl,
      Lexical.listFrom_cons (c := '"') rfl, Lexical.listFrom_end rfl]
    rfl
  have mem : openString ∈ tokenize "\r\n😀\"" := by simp [tokens]
  have start : ⟨1, 1, 2, 6⟩ ∈ openString.positions := List.mem_cons_self
  exact ⟨mem, rfl, start, positions_exact mem start⟩

end QueryDoc
