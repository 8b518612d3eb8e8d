import QueryDoc.Proofs.Lexical.Cut
import QueryDoc.Proofs.Location.Irrelevance

/-!
# Text between tokens

A word is a text that alone is one token. Words with gaps between them, each gap
made of insignificant characters and of comments that end within it, are the
tokens of these words, whatever the gaps are: no scanner looks past its own word
and finds something there that it could go on with. Hence two texts that differ
in their gaps only are parsed alike, and so is every text without lexical errors
after its tokens have been moved apart.
-/
namespace QueryDoc.Lexical

/-! ## Gaps -/

/-- Insignificant characters and comments, each of which ends with its line. -/
inductive IsClosedGap : List Char → Prop
  | nil : IsClosedGap []
  | blank {c : Char} {gap : List Char} :
      isInsignificant c = true → IsClosedGap gap → IsClosedGap (c :: gap)
  | comment {c : Char} {text gap : List Char} : (∀ d ∈ text, isLineEnd d = false) →
      isLineEnd c = true → IsClosedGap gap → IsClosedGap ('#' :: (text ++ c :: gap))

/-- What the text between two tokens may start with. -/
def opensGap (c : Char) : Bool := isInsignificant c || c == '#'

/-- Insignificant text goes on with no unit. -/
theorem not_extendsUnit {c : Char} (h : opensGap c = true) : extendsUnit c = false := by
  simp only [opensGap, isInsignificant, isSpacing, Bool.or_eq_true, beq_iff_eq] at h
  rcases h with (((((rfl | rfl) | rfl) | rfl) | rfl) | rfl) | rfl <;> decide

section Gaps
variable {next gap : List Char}

/-- A gap that is closed is one in front of any text. -/
theorem IsClosedGap.isGap (h : IsClosedGap gap) (next : List Char) : IsGap next gap := by
  induction h with
  | nil => exact .nil
  | blank hc _ ih => exact .blank hc ih
  | comment htext hc _ ih =>
    exact .comment htext (.cons (by simp [hc]) _) (.blank (isInsignificant_of_isLineEnd hc) ih)

/-- In front of a text on the same line every comment has ended. -/
theorem IsGap.closed (h : IsGap next gap) {c : Char} (hc : c ∈ next.head?)
    (hline : isLineEnd c = false) : IsClosedGap gap := by
  induction h with
  | nil => exact .nil
  | blank hd _ ih => exact .blank hd ih
  | @comment text gap htext hend _ ih =>
    cases gap with
    | nil =>
      have hstop : isLineEnd c = true := by simpa using hend c hc
      rw [hline] at hstop
      cases hstop
    | cons d gap =>
      have hstop : isLineEnd d = true := by simpa using hend d rfl
      cases ih with
      | blank _ hgap => exact .comment htext hstop hgap
      | comment => cases hstop

theorem IsGap.opens (h : IsGap next gap) : ∀ c ∈ gap.head?, opensGap c = true := by
  cases h with
  | nil => exact fun c hc => absurd hc (by simp)
  | blank hc _ =>
    intro d hd
    obtain rfl := Option.some.inj hd
    simp [opensGap, hc]
  | comment =>
    intro d hd
    obtain rfl := Option.some.inj hd
    rfl

/-- Nothing that stands between tokens goes on with a unit. -/
theorem IsGap.startsOutside (h : IsGap next gap) : StartsOutside extendsUnit gap :=
  fun c hc => not_extendsUnit (h.opens c hc)

/-- A comment is skipped up to the end of its line. -/
theorem splitIgnored_comment {text : List Char} (h : ∀ c ∈ text, isLineEnd c = false)
    {rest : List Char} (hrest : StartsOutside (fun c => !isLineEnd c) rest) :
    splitIgnored true (text ++ rest) =
      (text ++ (splitIgnored false rest).1, (splitIgnored false rest).2) := by
  induction text with
  | nil =>
    cases rest with
    | nil => rfl
    | cons c rest =>
      have hc : isLineEnd c = true := by simpa using hrest c rfl
      simp [splitIgnored, hc, isInsignificant_of_isLineEnd hc]
  | cons c text ih =>
    obtain ⟨hc, htext⟩ := List.forall_mem_cons.1 h
    simp only [List.cons_append, splitIgnored, hc, Bool.not_false, ih htext]

/-- A gap is skipped as a whole and nothing else is. -/
theorem splitIgnored_of_isGap (h : IsGap next gap) (hnext : StartsOutside opensGap next) :
    splitIgnored false (gap ++ next) = (gap, next) := by
  induction h with
  | nil =>
    cases next with
    | nil => rfl
    | cons c next =>
      have hc := hnext c rfl
      simp only [opensGap, Bool.or_eq_false_iff, beq_eq_false_iff_ne] at hc
      simp [splitIgnored, hc]
  | blank hc _ ih => simp [splitIgnored, hc, ih]
  | @comment text gap htext hend _ ih =>
    have hash : isInsignificant '#' = false := by decide
    simp [splitIgnored, hash, splitIgnored_comment htext hend, ih]

end Gaps

/-- What is left after skipping starts with no gap. -/
theorem startsOutside_splitIgnored (inComment : Bool) (cs : List Char) :
    StartsOutside opensGap (splitIgnored inComment cs).2 := by
  fun_induction splitIgnored inComment cs with
  | case1 => exact fun c hc => absurd hc (by simp)
  | case5 c cs hblank hhash => exact .cons (by simp [opensGap, hblank, hhash]) cs
  | _ => assumption

theorem isUnit_of_regular {s : Scan} {p : Position} {text : List Char}
    (h : ∀ message notes, s.lexeme.toKind p text ≠ .error message notes) : s.IsUnit :=
  fun f hf => h f.message (f.notes p) (by rw [hf]; rfl)

theorem toKind_ne_error {s : Scan} (h : s.IsUnit) {p : Position} {text : List Char}
    {message : String} {notes : List Note} : s.lexeme.toKind p text ≠ .error message notes := by
  cases hl : s.lexeme with
  | fault f => exact absurd hl (h f)
  | name =>
    simp only [Lexeme.toKind]
    split
    · simp
    · split
      · simp
      · split <;> simp
  | _ => simp [Lexeme.toKind]

theorem eq_nil_of_byteLength {cs : List Char} (h : byteLength cs = 0) : cs = [] := by
  by_contra hne
  exact absurd (byteLength_pos hne) (by omega)

/-! ## Words -/

/-- A text that alone is one token, and no error. -/
structure Word where
  text : List Char
  kind : TokenKind
  regular : ∀ message notes, kind ≠ .error message notes
  alone : Token.listOf text =
    [⟨kind, ⟨.zero, .after text⟩⟩, ⟨.endOfInput, .emptyAt (.after text)⟩]

namespace Word

/-- A word is a unit of the lexer that takes all of the text. -/
theorem scan (w : Word) : ∃ c cs, w.text = c :: cs ∧ opensGap c = false ∧
    (Scan.next c cs).IsUnit ∧ (Scan.next c cs).text = w.text ∧
    ∀ p, (Scan.next c cs).lexeme.toKind p w.text = w.kind := by
  have alone := w.alone
  have happ := splitIgnored_append false w.text
  have hout := startsOutside_splitIgnored false w.text
  rw [Token.listOf] at alone
  cases hsplit : (splitIgnored false w.text).2 with
  | nil =>
    rw [listFrom_end hsplit] at alone
    cases (List.cons.inj alone).2
  | cons c cs =>
    rw [listFrom_cons hsplit] at alone
    obtain ⟨hkind, hspan⟩ := Token.mk.inj (List.cons.inj alone).1
    obtain ⟨hstart, hstop⟩ := Span.mk.inj hspan
    rw [hsplit] at happ hout
    have hgap : (splitIgnored false w.text).1 = [] := by
      have hoffset := congrArg Position.offset hstart
      rw [Reading.offset_through] at hoffset
      exact eq_nil_of_byteLength (Nat.add_left_cancel hoffset)
    rw [hgap] at hkind hstop happ
    have hnext := (Scan.next_append c cs).trans happ
    have hrest : (Scan.next c cs).rest = [] := by
      have hoffset := congrArg Position.offset hstop
      rw [Reading.through_nil, Position.after, Reading.offset_through, Reading.offset_through,
        ← hnext, byteLength_append] at hoffset
      exact eq_nil_of_byteLength (by omega)
    rw [hrest, List.append_nil] at hnext
    have unit := isUnit_of_regular (hkind ▸ w.regular)
    refine ⟨c, cs, happ.symm, hout c rfl, unit, hnext, fun p => ?_⟩
    rw [← hnext]
    exact (toKind_of_isUnit unit p _).trans hkind

/-- A unit of the lexer is a word, whatever stood behind it. -/
def ofScan (c : Char) (cs : List Char) (unit : (Scan.next c cs).IsUnit)
    (hc : opensGap c = false) : Word where
  text := (Scan.next c cs).text
  kind := (Scan.next c cs).lexeme.toKind .zero (Scan.next c cs).text
  regular _ _ := toKind_ne_error unit
  alone := by
    obtain ⟨ds, htext, cut⟩ := next_cut unit (.nil _)
    have hskip : splitIgnored false (c :: ds) = ([], c :: ds) :=
      splitIgnored_of_isGap .nil (.cons hc ds)
    rw [List.append_nil] at cut
    rw [Token.listOf, htext, listFrom_cons (by rw [hskip]), hskip, cut, Scan.before,
      listFrom_end rfl, ← htext]
    rfl

end Word

/-! ## Words with gaps between them -/

/-- The text in which each word stands behind its gap, with another gap at the end. -/
def layOut : List (List Char × Word) → List Char → List Char
  | [], last => last
  | (gap, w) :: pieces, last => gap ++ (w.text ++ layOut pieces last)

/-- The words as tokens of the text laid out behind `read`, each on its own stretch of
it, and the end of input. -/
def wordTokens (read : List Char) : List (List Char × Word) → List Char → List Token
  | [], last => [⟨.endOfInput, .emptyAt (.after (read ++ last))⟩]
  | (gap, w) :: pieces, last =>
    ⟨w.kind, ⟨.after (read ++ gap), .after (read ++ gap ++ w.text)⟩⟩ ::
      wordTokens (read ++ gap ++ w.text) pieces last

/-- Words and the gaps around them. Between two words there is some text, and only a
comment behind the last may run up to the end. -/
structure Layout where
  pieces : List (List Char × Word)
  last : List Char
  closed : ∀ p ∈ pieces, IsClosedGap p.1
  parted : ∀ p ∈ pieces.tail, p.1 ≠ []
  ending : IsGap [] last

def Layout.text (l : Layout) : List Char := layOut l.pieces l.last

def Layout.words (l : Layout) : List Word := l.pieces.map Prod.snd

section Run
variable {r : Reading} {gap rest : List Char}

/-- The lexer skips the gap and takes the word. -/
theorem listFrom_word (w : Word) (hgap : IsClosedGap gap) (hrest : StartsOutside extendsUnit rest) :
    Token.listFrom r (gap ++ (w.text ++ rest)) =
      ⟨w.kind, ⟨(r.through gap).position, ((r.through gap).through w.text).position⟩⟩ ::
        Token.listFrom ((r.through gap).through w.text) rest := by
  obtain ⟨c, cs, htext, hc, unit, hcover, hkind⟩ := w.scan
  obtain ⟨ds, hds, cut⟩ := next_cut unit (Harmless.of_startsOutside hrest)
  obtain rfl : cs = ds := by
    rw [hcover, htext] at hds
    exact (List.cons.inj hds).2
  have hskip : splitIgnored false (gap ++ c :: (cs ++ rest)) = (gap, c :: (cs ++ rest)) :=
    splitIgnored_of_isGap (hgap.isGap _) (.cons hc _)
  rw [htext, List.cons_append, listFrom_cons (by rw [hskip]), hskip, cut, ← htext]
  simp only [Scan.before, Token.ofScan, hcover, hkind]

end Run

/-- Behind a word the rest of the text starts with a gap or is empty. -/
theorem layOut_startsOutside {pieces : List (List Char × Word)} {last : List Char}
    (closed : ∀ p ∈ pieces, IsClosedGap p.1) (parted : ∀ p ∈ pieces, p.1 ≠ [])
    (ending : IsGap [] last) : StartsOutside extendsUnit (layOut pieces last) := by
  cases pieces with
  | nil => exact ending.startsOutside
  | cons p pieces =>
    obtain ⟨gap, w⟩ := p
    have hgap := closed _ List.mem_cons_self
    have hne := parted _ List.mem_cons_self
    cases gap with
    | nil => exact absurd rfl hne
    | cons c gap => exact (hgap.isGap []).startsOutside

theorem listFrom_layOut (read : List Char) {pieces : List (List Char × Word)} {last : List Char}
    (closed : ∀ p ∈ pieces, IsClosedGap p.1) (parted : ∀ p ∈ pieces.tail, p.1 ≠ [])
    (ending : IsGap [] last) :
    Token.listFrom (Reading.start.through read) (layOut pieces last) =
      wordTokens read pieces last := by
  induction pieces generalizing read with
  | nil =>
    have hskip := splitIgnored_of_isGap ending fun c hc => absurd hc (by simp)
    rw [List.append_nil] at hskip
    rw [layOut, listFrom_end (by rw [hskip]), ← Reading.through_append]
    rfl
  | cons p pieces ih =>
    obtain ⟨gap, w⟩ := p
    obtain ⟨hgap, closed⟩ := List.forall_mem_cons.1 closed
    have hrest := layOut_startsOutside closed parted ending
    rw [layOut, listFrom_word w hgap hrest, ← Reading.through_append, ← Reading.through_append,
      ih (read ++ gap ++ w.text) closed (fun q hq => parted q (List.mem_of_mem_tail hq))]
    rfl

/-- The kinds depend on the words only. -/
theorem kinds_wordTokens (read : List Char) (pieces : List (List Char × Word)) (last : List Char) :
    (wordTokens read pieces last).map Token.kind =
      (pieces.map Prod.snd).map Word.kind ++ [.endOfInput] := by
  induction pieces generalizing read with
  | nil => rfl
  | cons p pieces ih => simp only [wordTokens, List.map_cons, List.cons_append, ih]

/-- A text in which no token is an error is laid out from words, which may touch. -/
theorem exists_layOut (read cs : List Char)
    (regular : ∀ t ∈ Token.listFrom (Reading.start.through read) cs,
      ∀ message notes, t.kind ≠ .error message notes) :
    ∃ pieces last, cs = layOut pieces last ∧ (∀ p ∈ pieces, IsClosedGap p.1) ∧ IsGap [] last ∧
      Token.listFrom (Reading.start.through read) cs = wordTokens read pieces last := by
  induction hn : cs.length using Nat.strong_induction_on generalizing read cs with
  | _ n ih =>
    have happ := splitIgnored_append false cs
    have hgap := (splitIgnored_gap cs).1
    have hout := startsOutside_splitIgnored false cs
    have hlen := length_splitIgnored_le false cs
    cases hsplit : (splitIgnored false cs).2 with
    | nil =>
      rw [hsplit, List.append_nil] at happ
      rw [hsplit, happ] at hgap
      refine ⟨[], cs, rfl, by simp, hgap, ?_⟩
      rw [listFrom_end hsplit, ← Reading.through_append]
      rfl
    | cons c rest =>
      have hc := hout c (by rw [hsplit]; rfl)
      have hline : isLineEnd c = false := by
        by_contra hend
        have := isInsignificant_of_isLineEnd (by simpa using hend)
        simp [opensGap, this] at hc
      rw [hsplit] at happ hgap hlen
      rw [listFrom_cons hsplit] at regular ⊢
      obtain ⟨hfirst, htail⟩ := List.forall_mem_cons.1 regular
      have unit := isUnit_of_regular hfirst
      have hshort := Scan.length_next_rest_lt c rest
      rw [← Reading.through_append, ← Reading.through_append, ← List.append_assoc] at htail
      obtain ⟨pieces, last, hrest, closed, ending, htokens⟩ :=
        ih _ (by omega) _ (Scan.next c rest).rest htail rfl
      refine ⟨((splitIgnored false cs).1, .ofScan c rest unit hc) :: pieces, last, ?_,
        List.forall_mem_cons.2 ⟨hgap.closed rfl hline, closed⟩, ending, ?_⟩
      · rw [layOut, ← hrest]
        exact happ.symm.trans (congrArg _ (Scan.next_append c rest).symm)
      · rw [wordTokens, ← Reading.through_append, ← Reading.through_append]
        refine congrArg₂ List.cons (congrArg₂ Token.mk (toKind_of_isUnit unit _ _) ?_) htokens
        rw [← Reading.through_append]
        rfl

/-! ## Gaps have no meaning -/

theorem tokenize_layout (l : Layout) {source : Source} (h : source.chars = l.text) :
    tokenize source.body = wordTokens [] l.pieces l.last :=
  (congrArg Token.listOf h).trans (listFrom_layOut [] l.closed l.parted l.ending)

/-- From the same words the same is parsed. -/
theorem parse_of_words {source source' : Source} {pieces pieces' : List (List Char × Word)}
    {last last' : List Char} (h : tokenize source.body = wordTokens [] pieces last)
    (h' : tokenize source'.body = wordTokens [] pieces' last')
    (hwords : pieces'.map Prod.snd = pieces.map Prod.snd) (entry : Entry) :
    SayTheSame (Node.parse entry .unlocated source) (Node.parse entry .unlocated source') := by
  refine Node.ofTokens_of_kinds entry source source' ?_
  have kinds : (tokenize source.body).map Token.kind = (tokenize source'.body).map Token.kind := by
    rw [h, h', kinds_wordTokens, kinds_wordTokens, hwords]
  have unplaced := congrArg (List.map TokenKind.unplaced) kinds
  rwa [List.map_map, List.map_map] at unplaced

/-- **Text between tokens has no meaning.** Words with gaps between them lex to these
words, each on its own stretch of the text, and the end of input. Texts laid out from
the same words are parsed to the same tree, apart from locations, or to errors that
say the same. -/
theorem lexing_local (l : Layout) (source : Source) (h : source.chars = l.text) :
    tokenize source.body = wordTokens [] l.pieces l.last ∧
    ∀ (l' : Layout) (source' : Source), source'.chars = l'.text → l'.words = l.words →
      ∀ entry, SayTheSame (Node.parse entry .unlocated source)
        (Node.parse entry .unlocated source') :=
  ⟨tokenize_layout l h, fun l' _ h' hwords entry =>
    parse_of_words (tokenize_layout l h) (tokenize_layout l' h') hwords entry⟩

/-- The words of a type that must not be null. -/
def markedWords : List Word :=
  [.ofScan 'a' [] (by decide) (by decide), .ofScan '!' [] (by decide) (by decide)]

/-- The mark may stand behind a comment or behind a tab. -/
theorem lexing_local_marked :
    tokenize "a #\n!" =
      [⟨.name "a", ⟨⟨0, 0, 0, 0⟩, ⟨0, 1, 1, 1⟩⟩⟩, ⟨.punctuator .bang, ⟨⟨1, 0, 0, 4⟩, ⟨1, 1, 1, 5⟩⟩⟩,
        ⟨.endOfInput, ⟨⟨1, 1, 1, 5⟩, ⟨1, 1, 1, 5⟩⟩⟩] ∧
    SayTheSame (Node.parse .type .unlocated (.ofText "a #\n!"))
      (Node.parse .type .unlocated (.ofText ",a\t!#")) := by
  have comment : IsClosedGap [' ', '#', '\n'] :=
    .blank (by decide) (@IsClosedGap.comment '\n' [] [] (by simp) (by decide) .nil)
  let l : Layout :=
    { pieces := [[], [' ', '#', '\n']].zip markedWords
      last := []
      closed := List.forall_mem_cons.2 ⟨.nil, List.forall_mem_singleton.2 comment⟩
      parted := List.forall_mem_singleton.2 (by simp)
      ending := .nil }
  let l' : Layout :=
    { pieces := [[','], ['\t']].zip markedWords
      last := ['#']
      closed := List.forall_mem_cons.2 ⟨.blank (by decide) .nil,
        List.forall_mem_singleton.2 (.blank (by decide) .nil)⟩
      parted := List.forall_mem_singleton.2 (by simp)
      ending := @IsGap.comment [] [] [] (by simp) (fun c hc => absurd hc (by simp)) .nil }
  obtain ⟨tokens, alike⟩ := lexing_local l (.ofText "a #\n!") rfl
  exact ⟨tokens.trans rfl, alike l' _ rfl rfl .type⟩

/-- A text without lexical errors, in which tokens may touch, is laid out from words
as well, and moving these apart changes nothing either. -/
theorem parse_moved_apart (source : Source)
    (regular : ∀ t ∈ tokenize source.body, ∀ message notes, t.kind ≠ .error message notes) :
    ∃ pieces last, source.chars = layOut pieces last ∧ (∀ p ∈ pieces, IsClosedGap p.1) ∧
      IsGap [] last ∧ tokenize source.body = wordTokens [] pieces last ∧
      ∀ (l : Layout) (source' : Source), source'.chars = l.text →
        l.words = pieces.map Prod.snd → ∀ entry,
          SayTheSame (Node.parse entry .unlocated source)
            (Node.parse entry .unlocated source') := by
  obtain ⟨pieces, last, htext, closed, ending, htokens⟩ := exists_layOut [] source.chars regular
  exact ⟨pieces, last, htext, closed, ending, htokens, fun l _ h' hwords entry =>
    parse_of_words htokens (tokenize_layout l h') hwords entry⟩

end QueryDoc.Lexical
