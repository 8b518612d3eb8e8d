import QueryDoc.Token.Stream

/-!
# A stream is its list

Whatever was looked at before, a stream answers as the list of its tokens would,
read from behind the tokens that were consumed. The buffer holds the tokens between
those and the ones that the supply still has, so none is lost, none comes twice, and
none comes out of order. The supply has given as many tokens as the call that
looked farthest needed, and no more.
-/
namespace QueryDoc.TokenStream

/-- What a stream can be asked. -/
inductive Call where
  | peek
  | peekNth (n : Nat)
  | consume
  | isAtEnd
deriving DecidableEq, Repr

inductive Answer where
  | token (t : Option Token)
  | flag (b : Bool)
deriving DecidableEq, Repr

/-- How many tokens a call looks past. -/
def Call.ahead : Call → Nat
  | .peekNth n => n
  | _ => 0

/-- Makes a call. -/
def call : Call → TokenStream → Answer × TokenStream
  | .peek, s => (.token s.peek.1, s.peek.2)
  | .peekNth n, s => (.token (s.peekNth n).1, (s.peekNth n).2)
  | .consume, s => (.token s.consume.1, s.consume.2)
  | .isAtEnd, s => (.flag s.isAtEnd.1, s.isAtEnd.2)

/-- A call that was made, with its answer. -/
structure Event where
  call : Call
  answer : Answer
deriving DecidableEq, Repr

/-- The token that was consumed, if one was. -/
def Event.consumed? : Event → Option Token
  | ⟨.consume, .token t⟩ => t
  | _ => none

/-- Makes calls one after the other: what they came to, and what is left of the
stream. -/
def calls : List Call → TokenStream → List Event × TokenStream
  | [], s => ([], s)
  | c :: cs, s =>
    let first := s.call c
    let others := first.2.calls cs
    (⟨c, first.1⟩ :: others.1, others.2)

/-- The tokens that calls consumed. -/
def consumed (es : List Event) : List Token := es.filterMap Event.consumed?

theorem consumed_cons (e : Event) (es : List Event) :
    consumed (e :: es) = e.consumed?.toList ++ consumed es := by
  cases h : e.consumed? <;> simp [consumed, h]

/-- How many tokens the supply must give for the calls, when `c` tokens have been
consumed before them. -/
def needed (c : Nat) : List Event → Nat
  | [] => 0
  | e :: es => max (c + e.call.ahead + 1) (needed (c + e.consumed?.toList.length) es)

/-- What a plain list answers of which `c` tokens have been consumed. -/
def Call.onList (tokens : List Token) (c : Nat) : Call → Answer
  | .peek => .token tokens[c]?
  | .peekNth n => .token tokens[c + n]?
  | .consume => .token tokens[c]?
  | .isAtEnd =>
    .flag (match tokens[c]? with
      | none => true
      | some t => t.kind == .endOfInput)

/-- What a call consumes is the next token of the list, if anything. -/
theorem Call.take_consumed (k : Call) (tokens : List Token) (c : Nat) :
    tokens.take c ++ (Event.mk k (k.onList tokens c)).consumed?.toList =
      tokens.take (c + (Event.mk k (k.onList tokens c)).consumed?.toList.length) := by
  cases k with
  | consume =>
    simp only [onList, Event.consumed?]
    cases h : tokens[c]? with
    | none => simp
    | some t => rw [Option.toList_some, List.length_singleton, List.take_add_one, h]; rfl
  | _ => simp [Event.consumed?]

/-- The stream of a list of which `c` tokens have been consumed and `p` asked of
the supply. -/
structure StandsAt (tokens : List Token) (c p : Nat) (s : TokenStream) : Prop where
  buffer : s.buffer = (tokens.take p).drop c
  supply : s.supply = tokens.drop p
  order : c ≤ p
  bound : p ≤ tokens.length

section Steps
variable {tokens : List Token} {c p : Nat} {s : TokenStream}

theorem standsAt_ofList (tokens : List Token) : StandsAt tokens 0 0 (ofList tokens) :=
  ⟨rfl, rfl, Nat.le_refl 0, Nat.zero_le _⟩

namespace StandsAt

theorem length_buffer (h : StandsAt tokens c p s) : s.buffer.length = p - c := by
  rw [h.buffer, List.length_drop, List.length_take, Nat.min_eq_left h.bound]

theorem tokens_eq (h : StandsAt tokens c p s) : tokens.take c ++ s.buffer ++ s.supply = tokens := by
  have htake : tokens.take c = (tokens.take p).take c := by
    rw [List.take_take, Nat.min_eq_left h.order]
  rw [htake, h.buffer, h.supply, List.take_append_drop, List.take_append_drop]

theorem fill (h : StandsAt tokens c p s) (n : Nat) :
    StandsAt tokens c (min (max p (c + n)) tokens.length) (s.fill n) := by
  have hc : c ≤ (tokens.take p).length := by
    rw [List.length_take, Nat.min_eq_left h.bound]
    exact h.order
  have hreach : p + (n - s.buffer.length) = max p (c + n) := by
    have := h.order
    rw [h.length_buffer]
    omega
  have hbound := h.bound
  refine ⟨?_, ?_, by have := h.order; omega, Nat.min_le_right _ _⟩
  · have hcap : tokens.take (min (max p (c + n)) tokens.length) = tokens.take (max p (c + n)) := by
      rw [List.take_eq_take_iff]
      omega
    rw [hcap, ← hreach, List.take_add, List.drop_append_of_le_length hc, ← h.buffer, ← h.supply]
    rfl
  · have hcap : tokens.drop (min (max p (c + n)) tokens.length) = tokens.drop (max p (c + n)) := by
      rw [List.drop_eq_drop_iff]
      omega
    rw [hcap, ← hreach, ← List.drop_drop, ← h.supply]
    rfl

/-- What the buffer holds at a place that was asked for. -/
theorem getElem_fill (h : StandsAt tokens c p s) (n : Nat) :
    (s.fill (n + 1)).buffer[n]? = tokens[c + n]? := by
  rw [(h.fill (n + 1)).buffer, List.getElem?_drop, List.getElem?_take]
  split
  · rfl
  · rw [eq_comm, List.getElem?_eq_none_iff]
    omega

/-- **One call.** It gets the answer of the list, and asks the supply for what it
needs. -/
theorem call (h : StandsAt tokens c p s) (k : Call) :
    (s.call k).1 = k.onList tokens c ∧
      StandsAt tokens (c + (Event.mk k (s.call k).1).consumed?.toList.length)
        (min (max p (c + k.ahead + 1)) tokens.length) (s.call k).2 := by
  have hfirst : (s.fill 1).buffer[0]? = tokens[c]? := h.getElem_fill 0
  cases k with
  | peek => exact ⟨congrArg Answer.token hfirst, h.fill 1⟩
  | peekNth n => exact ⟨congrArg Answer.token (h.getElem_fill n), h.fill (n + 1)⟩
  | isAtEnd =>
    have hpeek : s.peek = (tokens[c]?, s.fill 1) := Prod.ext hfirst rfl
    simp only [TokenStream.call, TokenStream.isAtEnd, hpeek, Call.onList]
    cases tokens[c]? <;> exact ⟨rfl, h.fill 1⟩
  | consume =>
    have hrun : s.consume = (tokens[c]?, { s.fill 1 with buffer := (s.fill 1).buffer.tail }) := by
      rw [consume, List.head?_eq_getElem?, hfirst]
    have filled := h.fill 1
    simp only [TokenStream.call, hrun]
    refine ⟨rfl, ?_⟩
    cases next : tokens[c]? with
    | none =>
      -- nothing is left, so nothing was consumed
      have hend : tokens.length ≤ c := List.getElem?_eq_none_iff.1 next
      have hempty : (s.fill 1).buffer = [] := by
        rw [filled.buffer, List.drop_eq_nil_iff, List.length_take]
        omega
      have hsame : { s.fill 1 with buffer := (s.fill 1).buffer.tail } = s.fill 1 := by
        rw [hempty, List.tail_nil, ← hempty]
      rw [hsame]
      exact filled
    | some t =>
      have hlt : c < tokens.length := (List.getElem?_eq_some_iff.1 next).1
      refine ⟨?_, filled.supply, ?_, filled.bound⟩
      · exact (congrArg List.tail filled.buffer).trans List.tail_drop
      · simp only [Event.consumed?, Option.toList_some, List.length_singleton, Call.ahead]
        omega

end StandsAt

end Steps

/-- **All calls.** What they consumed continues the tokens consumed before, and the
supply has given what one of them needed. -/
theorem StandsAt.calls {tokens : List Token} {c p : Nat} {s : TokenStream}
    (h : StandsAt tokens c p s) (ks : List Call) :
    tokens.take c ++ consumed (s.calls ks).1 =
        tokens.take (c + (consumed (s.calls ks).1).length) ∧
      StandsAt tokens (c + (consumed (s.calls ks).1).length)
        (min (max p (needed c (s.calls ks).1)) tokens.length) (s.calls ks).2 := by
  induction ks generalizing c p s with
  | nil =>
    have hcap : min (max p 0) tokens.length = p := by
      have := h.bound
      omega
    simp only [TokenStream.calls, consumed, List.filterMap_nil, List.length_nil, needed, hcap]
    exact ⟨List.append_nil _, h⟩
  | cons k ks ih =>
    obtain ⟨hanswer, first⟩ := h.call k
    obtain ⟨hothers, others⟩ := ih first
    have htaken := k.take_consumed tokens c
    simp only [TokenStream.calls, consumed_cons, needed]
    rw [← hanswer] at htaken
    generalize (Event.mk k (s.call k).1).consumed?.toList = ts at *
    have hcap : min (max (min (max p (c + k.ahead + 1)) tokens.length)
          (needed (c + ts.length) ((s.call k).2.calls ks).1)) tokens.length =
        min (max p (max (c + k.ahead + 1) (needed (c + ts.length) ((s.call k).2.calls ks).1)))
          tokens.length := by
      omega
    rw [hcap] at others
    rw [List.length_append, ← Nat.add_assoc, ← List.append_assoc, htaken]
    exact ⟨hothers, others⟩

/-- **A stream refines its list.** After any calls, the next one is answered as by the
list of which the tokens consumed so far have been taken off; the tokens consumed, those
in the buffer and those of the supply are the list; and the supply has given what the
call that looked farthest needed, as far as there are tokens. -/
theorem answers_as_list (tokens : List Token) (history : List Call) (next : Call) :
    let r := (ofList tokens).calls history
    (r.2.call next).1 = next.onList tokens (consumed r.1).length ∧
      consumed r.1 ++ r.2.buffer ++ r.2.supply = tokens ∧
      tokens.length - r.2.supply.length = min (needed 0 r.1) tokens.length := by
  obtain ⟨hconsumed, stands⟩ := (standsAt_ofList tokens).calls history
  simp only [Nat.zero_add, List.take_zero, List.nil_append, Nat.zero_max] at hconsumed stands
  refine ⟨(stands.call next).1, ?_, ?_⟩
  · rw [hconsumed]
    exact stands.tokens_eq
  · rw [stands.supply, List.length_drop]
    omega

end QueryDoc.TokenStream
