import QueryDoc.Proofs.Grammar.Viable
import QueryDoc.Proofs.Syntax.Map

/-!
# Looking at tokens through a view

A view changes what is of no concern to a parser: the positions of tokens and the
notes of lexical errors. It also settles how input ends: behind the tokens in front
of the first token for the end of input it puts one such token, and drops what comes
later. Through a view a parser does what it does without: it fails with the same
fault as the view shows it, or gives the same result with the view's spans. So
parsers decide nothing by positions, take the end of a list for the end of input,
and never look past it.

The judgement follows the text of a parser step by step. A loop is given the number
of tokens as its bound, which a view may change, so loops are taken without their
bounds.
-/
namespace QueryDoc

/-- What becomes of positions and of notes when tokens are looked at. The start of a
text stays where it is. -/
structure View where
  place : Position → Position
  note : Note → Note
  zero : place .zero = .zero

namespace View

variable {β γ : Type} (v : View)

def span (s : Span) : Span := ⟨v.place s.start, v.place s.stop⟩

def kind : TokenKind → TokenKind
  | .error message notes => .error message (notes.map v.note)
  | kind => kind

def token (t : Token) : Token := ⟨v.kind t.kind, v.span t.span⟩

/-- The end of input behind a token that ended at a position. -/
def stop (last : Option Position) : Token :=
  ⟨.endOfInput, .emptyAt (v.place (last.getD .zero))⟩

/-- The tokens up to the end of input, which is one token at last. -/
def tokens : Option Position → List Token → List Token
  | last, [] => [v.stop last]
  | _, t :: rest =>
    if t.kind = .endOfInput then [v.token t] else v.token t :: tokens (some t.span.stop) rest

def cursor (c : Cursor) : Cursor := ⟨v.tokens c.last c.tokens, c.last.map v.place⟩

def cause : Cause → Cause
  | .lexical message notes => .lexical message (notes.map v.note)
  | cause => cause

def fault (f : Fault) : Fault := { f with cause := v.cause f.cause, span := v.span f.span }

/-- How a run ends, with `g` what becomes of its result. -/
def outcome (g : β → γ) : Except Fault (β × Cursor) → Except Fault (γ × Cursor)
  | .ok (x, c) => .ok (g x, v.cursor c)
  | .error f => .error (v.fault f)

/-- Runs that end alike through the view both give a result, or are both at fault. -/
theorem outcome_alike {g : β → γ} {r r' : Except Fault (β × Cursor)}
    (h : v.outcome g r = v.outcome g r') :
    (∃ x y c d, r = .ok (x, c) ∧ r' = .ok (y, d) ∧ g x = g y) ∨
      ∃ f f', r = .error f ∧ r' = .error f' ∧ v.fault f = v.fault f' := by
  cases r with
  | ok a =>
    cases r' with
    | ok b =>
      simp only [outcome, Except.ok.injEq, Prod.mk.injEq] at h
      exact .inl ⟨a.1, b.1, a.2, b.2, rfl, rfl, h.1⟩
    | error f' => simp only [outcome, reduceCtorEq] at h
  | error f =>
    cases r' with
    | ok b => simp only [outcome, reduceCtorEq] at h
    | error f' => exact .inr ⟨f, f', rfl, rfl, Except.error.inj h⟩

/-! ## Two views -/

/-- Everything is seen as it is, up to the end of input. -/
def clear : View := ⟨id, id, rfl⟩

/-- Positions are not seen. -/
def placeless (note : Note → Note) : View := ⟨fun _ => .zero, note, rfl⟩

theorem cause_of_id (h : v.note = id) (c : Cause) : v.cause c = c := by
  cases c with
  | lexical message notes => simp only [cause, h, List.map_id]
  | _ => rfl

theorem clear_fault (f : Fault) : clear.fault f = f := by
  simp only [fault, clear.cause_of_id rfl]
  rfl

/-! ## What is seen next -/

theorem cause_unexpected (expected : List Expected) (next : Option TokenKind) :
    v.cause (Parser.unexpectedCause expected next) =
      Parser.unexpectedCause expected (next.map v.kind) := by
  cases next with
  | none => rfl
  | some k => cases k <;> rfl

/-- A kind is seen as it is, or it is that of a lexical error. -/
theorem kind_cases (k : TokenKind) :
    v.kind k = k ∨ ∃ message notes, k = .error message notes := by
  cases k with
  | error message notes => exact .inr ⟨message, notes, rfl⟩
  | _ => exact .inl rfl

theorem tokens_cons {t : Token} (last : Option Position) (rest : List Token)
    (h : t.kind ≠ .endOfInput) :
    v.tokens last (t :: rest) = v.token t :: v.tokens (some t.span.stop) rest :=
  if_neg h

/-- What comes after the end of input is not seen. -/
theorem tokens_end {e : Token} (last : Option Position) (ts us : List Token)
    (h : e.kind = .endOfInput) :
    v.tokens last (ts ++ e :: us) = v.tokens last (ts ++ [e]) := by
  induction ts generalizing last with
  | nil => simp only [List.nil_append, tokens, h, if_true]
  | cons t ts ih => simp only [List.cons_append, tokens, ih]

/-- The next token is seen as the view shows it, and as the end of input if there is
none. -/
theorem tokens_head? (last : Option Position) (ts : List Token) :
    (v.tokens last ts).head? = some ((ts.head?.map v.token).getD (v.stop last)) := by
  cases ts with
  | nil => rfl
  | cons t rest =>
    rw [tokens]
    split <;> rfl

theorem kinds_head? (c : Cursor) :
    (v.cursor c).kinds.head? = some (v.kind (c.kinds.head?.getD .endOfInput)) := by
  rw [Cursor.kinds, cursor, List.head?_map, tokens_head?, Cursor.kinds, List.head?_map]
  cases c.tokens <;> rfl

theorem nextSpan_cursor {c : Cursor} {s : Span} (h : Parser.nextSpan c = .ok (s, c)) :
    Parser.nextSpan (v.cursor c) = .ok (v.span s, v.cursor c) := by
  obtain ⟨rest, hrest⟩ := List.head?_eq_some_iff.1 (v.tokens_head? c.last c.tokens)
  obtain ⟨ts, last⟩ := c
  cases ts with
  | nil =>
    cases h
    rfl
  | cons t ts =>
    cases h
    simp only [Parser.nextSpan, cursor, hrest]
    rfl

/-- A kind that is neither the end of input nor a lexical error comes next exactly if it
is seen. -/
theorem kinds_head?_beq (c : Cursor) {k : TokenKind} (hend : .endOfInput ≠ k)
    (hplain : ∀ message notes, .error message notes ≠ k) :
    ((v.cursor c).kinds.head? == some k) = (c.kinds.head? == some k) := by
  rw [kinds_head?]
  cases c.kinds.head? with
  | none => exact beq_eq_false_iff_ne.2 fun h => hend (Option.some.inj h)
  | some j =>
    rcases v.kind_cases j with hj | ⟨message, notes, rfl⟩
    · rw [Option.getD_some, hj]
    · exact (beq_eq_false_iff_ne.2 fun h => hplain _ _ (Option.some.inj h)).trans
        (beq_eq_false_iff_ne.2 fun h => hplain _ _ (Option.some.inj h)).symm

theorem nextIs_cursor (p : Punctuator) (c : Cursor) :
    Parser.nextIs p (v.cursor c) = .ok (c.kinds.head? == some (.punctuator p), v.cursor c) := by
  rw [Parser.nextIs_run, v.kinds_head?_beq c (by simp) (by simp)]

theorem nextIsKeyword_cursor (word : String) (c : Cursor) :
    Parser.nextIsKeyword word (v.cursor c) =
      .ok (c.kinds.head? == some (.name word), v.cursor c) := by
  rw [Parser.nextIsKeyword_run, v.kinds_head?_beq c (by simp) (by simp)]

theorem atEnd_cursor (c : Cursor) :
    Parser.atEnd (v.cursor c) = .ok (Parser.endsHere c.kinds, v.cursor c) := by
  rw [Parser.atEnd_run, Parser.endsHere, Parser.endsHere, kinds_head?]
  cases c.kinds.head? with
  | none => rfl
  | some k => cases k <;> rfl

end View

namespace Parser

variable {β β' γ γ' δ : Type} {v : View} {g : β → γ} {c : Cursor}

/-- Through the view, `q` does what `p` does without, and gives what `g` makes of its
result. -/
def Seen (v : View) (g : β → γ) (p : Parser β) (q : Parser γ) (c : Cursor) : Prop :=
  q (v.cursor c) = v.outcome g (p c)

namespace Seen

variable {p : Parser β} {q : Parser γ}

theorem pure {x : β} {y : γ} (h : y = g x) : Seen v g (return x) (return y) c :=
  h ▸ rfl

theorem fail {cause cause' : Cause} {production : Production} {s : Span}
    (h : cause' = v.cause cause) :
    Seen v g (Parser.fail cause production s) (Parser.fail cause' production (v.span s)) c :=
  h ▸ rfl

theorem bind {f : β → Parser β'} {f' : γ → Parser γ'} {g' : β' → γ'} (h : Seen v g p q c)
    (hf : ∀ x c', p c = .ok (x, c') → Seen v g' (f x) (f' (g x)) c') :
    Seen v g' (p >>= f) (q >>= f') c := by
  unfold Seen at h ⊢
  cases hp : p c with
  | error e =>
    rw [hp] at h
    rw [bind_error hp, bind_error h]
    rfl
  | ok r =>
    obtain ⟨x, c'⟩ := r
    rw [hp] at h
    rw [bind_ok hp, bind_ok h]
    exact hf x c' hp

/-- A step that takes no token and whose result is known on both sides. -/
theorem look {t : Parser β'} {t' : Parser γ'} {f : β' → Parser β} {f' : γ' → Parser γ}
    {x : β'} {y : γ'} (ht : t c = .ok (x, c)) (ht' : t' (v.cursor c) = .ok (y, v.cursor c))
    (h : Seen v g (f x) (f' y) c) : Seen v g (t >>= f) (t' >>= f') c := by
  unfold Seen
  rw [bind_ok ht, bind_ok ht']
  exact h

theorem nextSpan {f : Span → Parser β} {f' : Span → Parser γ}
    (hf : ∀ s, Seen v g (f s) (f' (v.span s)) c) :
    Seen v g (Parser.nextSpan >>= f) (Parser.nextSpan >>= f') c := by
  obtain ⟨s, hs⟩ := nextSpan_run c
  exact .look hs (v.nextSpan_cursor hs) (hf s)

theorem spanFrom {start : Position} {f : Span → Parser β} {f' : Span → Parser γ}
    (hf : ∀ s, Seen v g (f s) (f' (v.span s)) c) :
    Seen v g (Parser.spanFrom start >>= f) (Parser.spanFrom (v.place start) >>= f') c := by
  refine .look rfl ?_ (hf ⟨start, c.last.getD start⟩)
  simp only [Parser.spanFrom, View.cursor, View.span, Option.getD_map]

/-- The result gets the span from a start to the last token taken. -/
theorem close {start : Position} {f : Span → β} {f' : Span → γ}
    (h : ∀ s, f' (v.span s) = g (f s)) :
    Seen v g (do return f (← Parser.spanFrom start))
      (do return f' (← Parser.spanFrom (v.place start))) c :=
  .spanFrom fun s => .pure (h s)

/-- A look at the kind of the next token, for parsers to which the end of a list is the
end of input. -/
theorem nextKind {f : Option TokenKind → Parser β} {f' : Option TokenKind → Parser γ}
    (alike : f none = f (some .endOfInput))
    (plain : ∀ k, v.kind k = k → (k ≠ .endOfInput → c.kinds.head? = some k) →
      Seen v g (f (some k)) (f' (some k)) c)
    (broken : ∀ message notes, Seen v g (f (some (.error message notes)))
      (f' (some (.error message (notes.map v.note)))) c) :
    Seen v g (Parser.nextKind >>= f) (Parser.nextKind >>= f') c := by
  refine .look (nextKind_run c) (nextKind_run _) ?_
  rw [v.kinds_head?]
  cases hc : c.kinds.head? with
  | none =>
    rw [alike]
    exact plain .endOfInput rfl fun h => absurd rfl h
  | some k =>
    rcases v.kind_cases k with hk | ⟨message, notes, rfl⟩
    · rw [Option.getD_some, hk]
      exact plain k hk fun _ => hc
    · exact broken message notes

theorem unexpected {expected : List Expected} {production : Production} :
    Seen v g (Parser.unexpected expected production) (Parser.unexpected expected production) c := by
  refine .nextKind rfl (fun k hk _ => ?_) fun _ _ => .nextSpan fun _ => .fail rfl
  refine .nextSpan fun s => .fail ?_
  rw [v.cause_unexpected, Option.map_some, hk]

theorem tooDeep {production : Production} :
    Seen v g (Parser.tooDeep production) (Parser.tooDeep production) c :=
  .nextSpan fun _ => .fail rfl

/-- A token that is not the end of input is taken. -/
theorem advance {k : TokenKind} (hk : c.kinds.head? = some k) (hend : k ≠ .endOfInput) :
    Seen v id Parser.advance Parser.advance c := by
  obtain ⟨tokens, last⟩ := c
  cases tokens with
  | nil => exact nomatch hk
  | cons t rest =>
    obtain rfl : t.kind = k := Option.some.inj hk
    unfold Seen
    rw [View.cursor, v.tokens_cons last rest hend]
    rfl

/-- The next token is taken for something that its span goes into. -/
theorem take {f : Span → Parser β} {f' : Span → Parser γ} {k : TokenKind}
    (hk : c.kinds.head? = some k) (hend : k ≠ .endOfInput)
    (hf : ∀ s c', Seen v g (f s) (f' (v.span s)) c') :
    Seen v g (do let s ← Parser.nextSpan; Parser.advance; f s)
      (do let s ← Parser.nextSpan; Parser.advance; f' s) c :=
  .nextSpan fun s => .bind (.advance hk hend) fun _ c' _ => hf s c'

/-- A loop in front of something else. -/
theorem repeated {loop : Nat → Parser β} {loop' : Nat → Parser γ} {f : β → Parser β'}
    {f' : γ → Parser γ'} {g' : β' → γ'} (h : Seen v g (unbounded loop) (unbounded loop') c)
    (hf : ∀ x c', Seen v g' (f x) (f' (g x)) c') :
    Seen v g' (remaining >>= fun n => loop (n + 1) >>= f)
      (remaining >>= fun n => loop' (n + 1) >>= f') c := by
  have whole : Seen v g' (unbounded loop >>= f) (unbounded loop' >>= f') c :=
    .bind h fun x c' _ => hf x c'
  rwa [unbounded, unbounded, bind_assoc, bind_assoc] at whole

section Tests

variable {yes no : Parser β} {yes' no' : Parser γ}

/-- A choice that comes out the same on both sides. -/
theorem test {t : Parser Bool} {b : Bool} (ht : t c = .ok (b, c))
    (ht' : t (v.cursor c) = .ok (b, v.cursor c)) (hyes : b = true → Seen v g yes yes' c)
    (hno : b = false → Seen v g no no' c) :
    Seen v g (t >>= fun b => if b then yes else no) (t >>= fun b => if b then yes' else no') c := by
  refine .look ht ht' ?_
  cases b with
  | true => exact hyes rfl
  | false => exact hno rfl

theorem nextIs {p : Punctuator}
    (hyes : c.kinds.head? = some (.punctuator p) → Seen v g yes yes' c)
    (hno : Seen v g no no' c) :
    Seen v g (Parser.nextIs p >>= fun b => if b then yes else no)
      (Parser.nextIs p >>= fun b => if b then yes' else no') c :=
  .test (nextIs_run p c) (v.nextIs_cursor p c) (fun h => hyes (beq_iff_eq.1 h)) fun _ => hno

theorem nextIsKeyword {word : String}
    (hyes : c.kinds.head? = some (.name word) → Seen v g yes yes' c) (hno : Seen v g no no' c) :
    Seen v g (Parser.nextIsKeyword word >>= fun b => if b then yes else no)
      (Parser.nextIsKeyword word >>= fun b => if b then yes' else no') c :=
  .test (nextIsKeyword_run word c) (v.nextIsKeyword_cursor word c)
    (fun h => hyes (beq_iff_eq.1 h)) fun _ => hno

theorem atEnd (hyes : Seen v g yes yes' c) (hno : Seen v g no no' c) :
    Seen v g (Parser.atEnd >>= fun b => if b then yes else no)
      (Parser.atEnd >>= fun b => if b then yes' else no') c :=
  .test (atEnd_run c) (v.atEnd_cursor c) (fun _ => hyes) fun _ => hno

end Tests

end Seen

/-- A parser does through the view what it does without. -/
def Sees (v : View) (g : β → β) (p : Parser β) : Prop := ∀ c, Seen v g p p c

/-! ## Single tokens -/

theorem sees_expect (p : Punctuator) (production : Production) :
    Sees v v.span (expect p production) := fun _ =>
  .nextIs (fun hnext => .take hnext nofun fun _ _ => .pure rfl) .unexpected

theorem sees_expectKeyword (word : String) (production : Production) :
    Sees v id (expectKeyword word production) := fun _ =>
  .nextIsKeyword (fun hnext => .advance hnext nofun) .unexpected

theorem sees_expectEnd (production : Production) : Sees v id (expectEnd production) :=
  fun _ => .atEnd (.pure rfl) .unexpected

theorem sees_name (production : Production) : Sees v (Name.map v.span) (name production) := by
  intro c
  refine .nextKind rfl (fun k _ hnext => ?_) fun _ _ => .unexpected
  rw [Option.bind_some]
  cases htext : k.nameText? with
  | none => exact .unexpected
  | some text =>
    have hend : k ≠ .endOfInput := by
      rintro rfl
      exact nomatch htext
    exact .take (hnext hend) hend fun _ _ => .pure rfl

/-! ## Loops -/

theorem Rounds.sees {g : β → β} {loop : Nat → Parser β} {round : Parser β → Parser β}
    (h : Rounds loop round)
    (hround : ∀ p c, (∀ c', c'.tokens.length < c.tokens.length → Seen v g p p c') →
      Seen v g (round p) (round p) c) : Sees v g (unbounded loop) := by
  intro c
  induction hn : c.tokens.length using Nat.strong_induction_on generalizing c with
  | _ n ih =>
    subst hn
    rw [h.unfold]
    exact hround _ c fun c' hc' => ih _ hc' c' rfl

section Loops

variable {g : β → β} {item : Parser β} (hitem : Sees v g item) (hshrinks : Shrinks item)

include hitem hshrinks

theorem seen_cons {next : Parser (List β)}
    (hnext : ∀ c', c'.tokens.length < c.tokens.length → Seen v (List.map g) next next c') :
    Seen v (List.map g) (do let x ← item; return x :: (← next))
      (do let x ← item; return x :: (← next)) c :=
  .bind (hitem c) fun x c' hx => .bind (hnext c' (hshrinks c x c' hx)) fun _ _ _ => .pure rfl

theorem sees_manyUntil (close : Punctuator) (production : Production) :
    Sees v (List.map g) (unbounded (manyUntil close production item)) :=
  (rounds_manyUntil hshrinks close production).sees fun _ _ ih =>
    .nextIs (fun _ => .pure rfl) (.atEnd .unexpected (seen_cons hitem hshrinks ih))

theorem sees_manyWhile (first : Punctuator) :
    Sees v (List.map g) (unbounded (manyWhile first item)) :=
  (rounds_manyWhile hshrinks first).sees fun _ _ ih =>
    .nextIs (fun _ => seen_cons hitem hshrinks ih) (.pure rfl)

theorem sees_someUntil (close : Punctuator) :
    Sees v (List.map g) (unbounded (someUntil close item)) :=
  (rounds_someUntil hshrinks close).sees fun _ c ih =>
    .bind (hitem c) fun x c' hx => .nextIs (fun _ => .pure rfl)
      (.bind (ih c' (hshrinks c x c' hx)) fun _ _ _ => .pure rfl)

theorem sees_nonempty (opening closing : Punctuator) (construct : Construct)
    (production : Production) :
    Sees v (Prod.map v.span (List.map g))
      (nonempty opening closing construct production item) := by
  intro c
  refine .bind (sees_expect opening production c) fun s c' _ => .nextIs (fun _ => ?_) ?_
  · exact .nextSpan fun _ => .fail rfl
  · refine .repeated (sees_someUntil hitem hshrinks closing c') fun xs c'' => ?_
    exact .bind (sees_expect closing production c'') fun _ _ _ => .pure rfl

end Loops

end Parser

end QueryDoc
