import QueryDoc.Proofs.Parse.Cursor
import QueryDoc.Proofs.Token.Stream

/-!
# A stream and a list in step

A descent reads a stream and counts levels; a parser on a list does neither. A state
stands for a cursor on the list of the tokens that the stream still has. The two go in
step at a depth if from any state there and its cursor they give the same result or the
same fault, the state reached stands for the cursor reached, and the depth is the same
again. The stream answers a look and gives up a token as the list would, so each single
step keeps in step, and so do what is combined of such steps and the loops.
-/
namespace QueryDoc

namespace TokenStream

/-- The tokens that were not consumed. -/
def rest (s : TokenStream) : List Token := s.buffer ++ s.supply

theorem standsAt_rest (s : TokenStream) : StandsAt s.rest 0 s.buffer.length s where
  buffer := by simp [rest]
  supply := by simp [rest]
  order := Nat.zero_le _
  bound := by simp [rest]

theorem StandsAt.rest_eq {tokens : List Token} {c p : Nat} {s : TokenStream}
    (h : StandsAt tokens c p s) : s.rest = tokens.drop c := by
  have whole := h.tokens_eq
  rw [List.append_assoc] at whole
  exact List.append_cancel_left (whole.trans (List.take_append_drop c tokens).symm)

theorem peek_eq (s : TokenStream) : s.peek.1 = s.rest.head? ∧ s.peek.2.rest = s.rest := by
  obtain ⟨answer, stands⟩ := s.standsAt_rest.call .peek
  rw [List.head?_eq_getElem?]
  exact ⟨Answer.token.inj answer, stands.rest_eq⟩

theorem consume_eq (s : TokenStream) :
    s.consume.1 = s.rest.head? ∧ s.consume.2.rest = s.rest.tail := by
  obtain ⟨answer, stands⟩ := s.standsAt_rest.call .consume
  have next : s.consume.1 = s.rest.head? := by
    rw [List.head?_eq_getElem?]
    exact Answer.token.inj answer
  refine ⟨next, stands.rest_eq.trans ?_⟩
  have taken : (Event.mk .consume (s.call .consume).1).consumed? = s.rest.head? := next
  rw [taken]
  cases s.rest <;> rfl

theorem isAtEnd_eq (s : TokenStream) :
    s.isAtEnd.1 = s.rest.head?.elim true (fun t => t.kind == .endOfInput) ∧
      s.isAtEnd.2.rest = s.rest := by
  obtain ⟨answer, stands⟩ := s.standsAt_rest.call .isAtEnd
  refine ⟨(Answer.flag.inj answer).trans ?_, stands.rest_eq⟩
  rw [List.head?_eq_getElem?]
  cases s.rest[0]? <;> rfl

end TokenStream

namespace Descent

variable {β γ δ : Type} {d : Nat}

/-- A step that succeeds goes on from the state it reaches. -/
theorem bind_run {σ : Type} {m : StateT σ (Except Fault) β} {f : β → StateT σ (Except Fault) γ}
    {s s' : σ} {x : β} (h : m s = .ok (x, s')) : (m >>= f) s = f x s' := by
  simp only [bind, StateT.bind, h, Except.bind]

/-- The cursor that a state stands for. -/
def State.cursor (s : State) : Cursor := ⟨s.stream.rest, s.last⟩

/-- A look at the next token moves nothing. -/
theorem peek_run (s : State) :
    ∃ s' : State, peek s = .ok (s.cursor.tokens.head?, s') ∧ s'.depth = s.depth ∧
      s'.cursor = s.cursor := by
  obtain ⟨answer, same⟩ := s.stream.peek_eq
  refine ⟨_, congrArg (fun t => Except.ok (t, _)) answer, rfl, ?_⟩
  rw [State.cursor, same]
  rfl

/-- The same result at corresponding places, at depth `d`, or the same fault. -/
inductive Agrees (d : Nat) : Except Fault (β × State) → Except Fault (β × Cursor) → Prop
  | ok {x : β} {s : State} {c : Cursor} (cursor : s.cursor = c) (depth : s.depth = d) :
    Agrees d (.ok (x, s)) (.ok (x, c))
  | error {fault : Fault} : Agrees d (.error fault) (.error fault)

/-- All looks at the next token see what is first on the same list. -/
theorem peek_agrees {s : State} {c : Cursor} {f : Option Token → Descent γ}
    {a : Except Fault (γ × Cursor)} (depth : s.depth = d) (seen : s.cursor = c)
    (h : ∀ s' : State, s'.depth = d → s'.cursor = c → Agrees d (f c.tokens.head? s') a) :
    Agrees d ((peek >>= f) s) a := by
  obtain ⟨s', run, depth', cursor⟩ := peek_run s
  rw [bind_run run, seen]
  exact h s' (depth'.trans depth) (cursor.trans seen)

/-- At depth `d` the one parser does on a stream what the other does on a list. -/
def Lockstep (d : Nat) (m : Descent β) (p : Parser β) : Prop :=
  ∀ s : State, s.depth = d → Agrees d (m s) (p s.cursor)

namespace Lockstep
variable {m : Descent β} {p : Parser β} {f : β → Descent γ} {g : β → Parser γ}

theorem pure (x : β) : Lockstep d (Pure.pure x) (Pure.pure x) := fun _ depth => .ok rfl depth

theorem bind (h : Lockstep d m p) (hf : ∀ x, Lockstep d (f x) (g x)) :
    Lockstep d (m >>= f) (p >>= g) := by
  intro s depth
  have first := h s depth
  simp only [Bind.bind, StateT.bind, Except.bind]
  generalize m s = a at first
  generalize p s.cursor = b at first
  cases first with
  | ok cursor depth =>
    subst cursor
    exact hf _ _ depth
  | error => exact .error

theorem ite {c : Prop} [Decidable c] {m' : Descent β} {p' : Parser β} (h : Lockstep d m p)
    (h' : Lockstep d m' p') : Lockstep d (if c then m else m') (if c then p else p') := by
  split
  · exact h
  · exact h'

/-- What follows a look ahead may depend on the tokens that are left. -/
theorem peek_bind {f : Option Token → Descent γ} {q : Parser γ}
    (h : ∀ s : State, s.depth = d → Agrees d (f s.cursor.tokens.head? s) (q s.cursor)) :
    Lockstep d (peek >>= f) q := by
  intro s depth
  refine peek_agrees depth rfl fun s' depth' cursor => ?_
  rw [← cursor]
  exact h s' depth'

/-- What follows may depend on the depth, which is known. -/
theorem get_bind {f : State → Descent γ} {q : Parser γ}
    (h : ∀ s : State, s.depth = d → Lockstep d (f s) q) : Lockstep d (get >>= f) q :=
  fun s depth => h s depth s depth

theorem fail (cause : Cause) (production : Production) (span : Span) :
    Lockstep d (Descent.fail cause production span : Descent β)
      (Parser.fail cause production span) := fun _ _ => .error

end Lockstep

/-! ## Looking ahead -/

theorem nextKind_bind (f : Option TokenKind → Descent γ) :
    nextKind >>= f = peek >>= fun t => f (t.map Token.kind) := rfl

theorem nextIs_bind (p : Punctuator) (f : Bool → Descent γ) :
    nextIs p >>= f = peek >>= fun t => f (t.map Token.kind == some (.punctuator p)) := rfl

theorem nextIsKeyword_bind (word : String) (f : Bool → Descent γ) :
    nextIsKeyword word >>= f = peek >>= fun t => f (t.map Token.kind == some (.name word)) := rfl

theorem nextIsName_bind (f : Bool → Descent γ) :
    nextIsName >>= f =
      peek >>= fun t => f ((t.map Token.kind).bind TokenKind.nameText?).isSome := rfl

theorem nextKind_lockstep : Lockstep d nextKind Parser.nextKind :=
  .peek_bind fun _ depth => .ok rfl depth

theorem nextIs_lockstep (p : Punctuator) : Lockstep d (nextIs p) (Parser.nextIs p) :=
  nextKind_lockstep.bind fun _ => .pure _

theorem nextIsKeyword_lockstep (word : String) :
    Lockstep d (nextIsKeyword word) (Parser.nextIsKeyword word) :=
  nextKind_lockstep.bind fun _ => .pure _

theorem currentSpan_lockstep : Lockstep d currentSpan Parser.nextSpan := by
  refine .peek_bind fun s depth => ?_
  rw [Parser.nextSpan]
  cases s.cursor.tokens with
  | nil => exact .ok rfl depth
  | cons t rest => exact .ok rfl depth

theorem spanFrom_lockstep (start : Position) :
    Lockstep d (spanFrom start) (Parser.spanFrom start) := fun _ depth => .ok rfl depth

theorem atEnd_eq (c : Cursor) :
    Parser.atEnd c = .ok (c.tokens.head?.elim true (fun t => t.kind == .endOfInput), c) := by
  obtain ⟨tokens, last⟩ := c
  cases tokens <;> rfl

theorem isAtEnd_lockstep : Lockstep d isAtEnd Parser.atEnd := by
  intro s depth
  obtain ⟨answer, same⟩ := s.stream.isAtEnd_eq
  rw [isAtEnd, atEnd_eq, answer]
  exact .ok (congrArg (fun tokens => (⟨tokens, s.last⟩ : Cursor)) same) depth

theorem remaining_lockstep : Lockstep d remaining Parser.remaining := by
  intro s depth
  rw [remaining, ← List.length_append]
  exact .ok rfl depth

theorem unexpected_lockstep (expected : List Expected) (production : Production) :
    Lockstep d (unexpected expected production : Descent β)
      (Parser.unexpected expected production) :=
  nextKind_lockstep.bind fun _ => currentSpan_lockstep.bind fun _ => .fail _ _ _

/-- Nothing follows where the nesting is too deep. -/
theorem Lockstep.tooDeep_bind (production : Production) (f : β → Descent γ) (g : δ → Parser γ) :
    Lockstep d (tooDeep production >>= f) (Parser.tooDeep production >>= g) := by
  rw [tooDeep, Parser.tooDeep, bind_assoc, bind_assoc]
  exact currentSpan_lockstep.bind fun span => .fail _ _ _

/-! ## Taking tokens -/

theorem consume_run (s : State) :
    ∃ s' : State, consume s = .ok (s.cursor.tokens.head?, s') ∧ s'.depth = s.depth ∧
      s'.cursor = ⟨s.cursor.tokens.tail,
        (s.cursor.tokens.head?.map fun t => t.span.stop).or s.last⟩ := by
  obtain ⟨answer, tail⟩ := s.stream.consume_eq
  refine ⟨_, congrArg (fun t => Except.ok (t, _)) answer, rfl, ?_⟩
  rw [State.cursor, tail, answer]
  rfl

/-- The token that is taken is the first on the list. -/
theorem consume_agrees {f : Option Token → Descent γ} {q : Parser γ} {s : State}
    (depth : s.depth = d) {t : Token} {rest : List Token} (next : s.cursor.tokens = t :: rest)
    (hf : Lockstep d (f (some t)) q) :
    Agrees d ((consume >>= f) s) ((Parser.advance >>= fun _ => q) s.cursor) := by
  obtain ⟨s', run, depth', cursor⟩ := consume_run s
  rw [next] at run cursor
  have taken : Parser.advance s.cursor = .ok ((), s'.cursor) := by
    rw [Parser.advance, next, cursor]
    rfl
  rw [bind_run run, bind_run taken]
  exact hf s' (depth'.trans depth)

/-- A token of which nothing is made. At the end of the list neither parser takes one. -/
theorem Lockstep.consume_bind {m : Descent γ} {q : Parser γ} (h : Lockstep d m q) :
    Lockstep d (consume >>= fun _ => m) (Parser.advance >>= fun _ => q) := by
  intro s depth
  cases next : s.cursor.tokens with
  | nil =>
    obtain ⟨s', run, depth', cursor⟩ := consume_run s
    have same : s'.cursor = s.cursor := by
      rw [cursor, next]
      exact congrArg (fun tokens => (⟨tokens, s.last⟩ : Cursor)) next.symm
    have taken : Parser.advance s.cursor = .ok ((), s'.cursor) := by
      rw [Parser.advance, next, same]
    rw [bind_run run, bind_run taken]
    exact h s' (depth'.trans depth)
  | cons t rest => exact consume_agrees depth next h

/-- A token of the kind that was seen is on the list. -/
theorem exists_next {c : Cursor} {kind : TokenKind}
    (h : c.tokens.head?.map Token.kind = some kind) :
    ∃ t rest, c.tokens = t :: rest ∧ t.kind = kind := by
  cases next : c.tokens with
  | nil =>
    rw [next] at h
    cases h
  | cons t rest =>
    rw [next] at h
    exact ⟨t, rest, rfl, Option.some.inj h⟩

theorem nextKind_seen (c : Cursor) (f : Option TokenKind → Parser γ) :
    (Parser.nextKind >>= f) c = f (c.tokens.head?.map Token.kind) c := rfl

theorem nextSpan_seen {c : Cursor} {t : Token} {rest : List Token} (next : c.tokens = t :: rest)
    (f : Span → Parser γ) : (Parser.nextSpan >>= f) c = f t.span c :=
  bind_run (by rw [Parser.nextSpan, next])

theorem expect_lockstep (p : Punctuator) (production : Production) :
    Lockstep d (expect p production) (Parser.expect p production) := by
  rw [expect, nextIs_bind]
  refine .peek_bind fun s depth => ?_
  have right : Parser.expect p production s.cursor =
      (if (s.cursor.tokens.head?.map Token.kind == some (.punctuator p)) = true then (do
          let span ← Parser.nextSpan
          Parser.advance
          return span)
        else Parser.unexpected [.literal p.text] production) s.cursor := rfl
  rw [right]
  by_cases here : (s.cursor.tokens.head?.map Token.kind == some (.punctuator p)) = true
  · obtain ⟨t, rest, next, -⟩ := exists_next (beq_iff_eq.1 here)
    rw [if_pos here, if_pos here, nextSpan_seen next]
    exact consume_agrees depth next (.pure t.span)
  · rw [if_neg here, if_neg here]
    exact unexpected_lockstep _ _ s depth

theorem expectKeyword_lockstep (word : String) (production : Production) :
    Lockstep d (expectKeyword word production) (Parser.expectKeyword word production) := by
  rw [expectKeyword, nextIsKeyword_bind]
  refine .peek_bind fun s depth => ?_
  have right : Parser.expectKeyword word production s.cursor =
      (if (s.cursor.tokens.head?.map Token.kind == some (.name word)) = true then
          Parser.advance
        else Parser.unexpected [.literal word] production) s.cursor := rfl
  rw [right, ← bind_pure_unit (x := Parser.advance)]
  by_cases here : (s.cursor.tokens.head?.map Token.kind == some (.name word)) = true
  · obtain ⟨t, rest, next, -⟩ := exists_next (beq_iff_eq.1 here)
    rw [if_pos here, if_pos here]
    exact consume_agrees depth next (.pure ())
  · rw [if_neg here, if_neg here]
    exact unexpected_lockstep _ _ s depth

theorem name_lockstep {α : Type} [Carried α] (production : Production) :
    Lockstep d (name production : Descent (Name α)) (Parser.name production) := by
  rw [name, nextIsName_bind]
  refine .peek_bind fun s depth => ?_
  rw [Parser.name, nextKind_seen]
  cases here : (s.cursor.tokens.head?.map Token.kind).bind TokenKind.nameText? with
  | none => exact unexpected_lockstep _ _ s depth
  | some text =>
    obtain ⟨kind, seen, named⟩ := Option.bind_eq_some_iff.1 here
    obtain ⟨t, rest, next, rfl⟩ := exists_next seen
    dsimp only
    rw [if_pos (by rfl), nextSpan_seen next]
    refine consume_agrees depth next ?_
    dsimp only
    rw [named]
    exact .pure _

theorem expectEnd_lockstep (production : Production) :
    Lockstep d (expectEnd production) (Parser.expectEnd production) :=
  isAtEnd_lockstep.bind fun _ => .ite (.pure ()) (unexpected_lockstep _ _)

/-! ## Loops -/

section Loops
variable {item : Descent β} {item' : Parser β} (h : Lockstep d item item')

include h

theorem someUntil_lockstep (close : Punctuator) (n : Nat) :
    Lockstep d (someUntil close item n) (Parser.someUntil close item' n) := by
  induction n with
  | zero => exact .pure []
  | succ n ih =>
    refine h.bind fun x => (nextIs_lockstep close).bind fun b => .ite (.pure [x]) ?_
    exact ih.bind fun xs => .pure _

theorem manyUntil_lockstep (close : Punctuator) (production : Production) (n : Nat) :
    Lockstep d (manyUntil close production item n)
      (Parser.manyUntil close production item' n) := by
  induction n with
  | zero => exact .pure []
  | succ n ih =>
    refine (nextIs_lockstep close).bind fun b => .ite (.pure []) ?_
    refine isAtEnd_lockstep.bind fun b => .ite (unexpected_lockstep _ _) ?_
    exact h.bind fun x => ih.bind fun xs => .pure _

theorem manyWhile_lockstep (first : Punctuator) (n : Nat) :
    Lockstep d (manyWhile first item n) (Parser.manyWhile first item' n) := by
  induction n with
  | zero => exact .pure []
  | succ n ih =>
    refine (nextIs_lockstep first).bind fun b => .ite ?_ (.pure [])
    exact h.bind fun x => ih.bind fun xs => .pure _

theorem nonempty_lockstep (opening closing : Punctuator) (construct : Construct)
    (production : Production) :
    Lockstep d (nonempty opening closing construct production item)
      (Parser.nonempty opening closing construct production item') := by
  refine (expect_lockstep opening production).bind fun start => ?_
  refine (nextIs_lockstep closing).bind fun b => .ite ?_ ?_
  · exact currentSpan_lockstep.bind fun stop => .fail _ _ _
  · refine remaining_lockstep.bind fun n => (someUntil_lockstep h closing (n + 1)).bind ?_
    exact fun items => (expect_lockstep closing production).bind fun _ => .pure _

end Loops

end Descent

end QueryDoc
