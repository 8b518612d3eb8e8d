import QueryDoc.Proofs.Grammar.Shape
import QueryDoc.Proofs.Parse.Document

/-!
# What a parser reads

Two statements about a parser and the tokens it takes. `Yields` says that
whatever it returns is right: the tokens taken and the result satisfy a relation.
`Reads` says that it returns: given certain tokens it takes exactly those, and
the result has a property. Both follow the text of a parser step by step, since
a look at the next token is a case distinction on the kinds that are left.
-/
namespace QueryDoc

/-- The kinds of the tokens that are left. -/
def Cursor.kinds (c : Cursor) : List TokenKind := c.tokens.map Token.kind

namespace Parser
open Grammar

variable {β γ : Type}

/-! ## Steps -/

theorem bind_ok {p : Parser β} {f : β → Parser γ} {c c' : Cursor} {x : β}
    (h : p c = .ok (x, c')) : (p >>= f) c = f x c' := by
  simp only [bind, StateT.bind, h, Except.bind]

theorem bind_eq_ok {p : Parser β} {f : β → Parser γ} {c : Cursor} {r : γ × Cursor}
    (h : (p >>= f) c = .ok r) : ∃ x c', p c = .ok (x, c') ∧ f x c' = .ok r := by
  cases hp : p c with
  | error e => simp only [bind, StateT.bind, hp, Except.bind] at h; cases h
  | ok r' =>
    obtain ⟨x, c'⟩ := r'
    rw [bind_ok hp] at h
    exact ⟨x, c', rfl, h⟩

theorem nextKind_run (c : Cursor) : nextKind c = .ok (c.kinds.head?, c) := by
  simp [nextKind, Cursor.kinds, List.head?_map]

theorem nextIs_run (p : Punctuator) (c : Cursor) :
    nextIs p c = .ok (c.kinds.head? == some (.punctuator p), c) := by
  rw [nextIs, bind_ok (nextKind_run c)]
  rfl

theorem nextIsKeyword_run (word : String) (c : Cursor) :
    nextIsKeyword word c = .ok (c.kinds.head? == some (.name word), c) := by
  rw [nextIsKeyword, bind_ok (nextKind_run c)]
  rfl

/-- Nothing is left but the end of input. -/
def endsHere (kinds : List TokenKind) : Bool :=
  match kinds.head? with
  | none => true
  | some kind => kind == .endOfInput

theorem atEnd_run (c : Cursor) : atEnd c = .ok (endsHere c.kinds, c) := by
  rw [atEnd, bind_ok (nextKind_run c), endsHere]
  cases c.kinds.head? <;> rfl

theorem nextSpan_run (c : Cursor) : ∃ s, nextSpan c = .ok (s, c) := by
  unfold nextSpan
  split <;> exact ⟨_, rfl⟩

theorem advance_run (c : Cursor) : ∃ c', advance c = .ok ((), c') ∧ c'.kinds = c.kinds.tail := by
  unfold advance Cursor.kinds
  split
  · rename_i t rest h
    exact ⟨_, rfl, by simp [h]⟩
  · rename_i h
    exact ⟨c, rfl, by simp [h]⟩

/-! ## Whatever is returned is right -/

/-- If the parser returns, the tokens taken and the result are in the relation. -/
def Yields (p : Parser β) (c : Cursor) (R : List TokenKind → β → Prop) : Prop :=
  ∀ x c', p c = .ok (x, c') → ∃ ts, c.kinds = ts ++ c'.kinds ∧ R ts x

section Yields
variable {c : Cursor} {R : List TokenKind → γ → Prop}

theorem Yields.mono {p : Parser β} {P Q : List TokenKind → β → Prop} (h : Yields p c P)
    (hq : ∀ ts x, P ts x → Q ts x) : Yields p c Q := by
  intro x c' hp
  obtain ⟨ts, hk, hr⟩ := h x c' hp
  exact ⟨ts, hk, hq ts x hr⟩

theorem Yields.pure {x : γ} (h : R [] x) : Yields (Pure.pure x) c R := by
  intro y c' hp
  cases hp
  exact ⟨[], rfl, h⟩

theorem Yields.bind {p : Parser β} {f : β → Parser γ} {P : List TokenKind → β → Prop}
    (hp : Yields p c P)
    (hf : ∀ us x c', P us x → Yields (f x) c' fun vs y => R (us ++ vs) y) :
    Yields (p >>= f) c R := by
  intro y c'' h
  obtain ⟨x, c', h1, h2⟩ := bind_eq_ok h
  obtain ⟨us, hu, hx⟩ := hp x c' h1
  obtain ⟨vs, hv, hy⟩ := hf us x c' hx y c'' h2
  exact ⟨us ++ vs, by rw [hu, hv, List.append_assoc], hy⟩

theorem Yields.error {p : Parser β} {P : List TokenKind → β → Prop} {e : Fault}
    (h : p c = .error e) : Yields p c P := by
  intro x c' hp
  rw [h] at hp
  cases hp

/-- A step that takes no token. -/
theorem Yields.look {p : Parser β} {f : β → Parser γ} {x : β} (hp : p c = .ok (x, c))
    (hf : Yields (f x) c R) : Yields (p >>= f) c R := by
  intro y c' h
  rw [bind_ok hp] at h
  exact hf y c' h

theorem Yields.nextSpan {f : Span → Parser γ} (hf : ∀ s, Yields (f s) c R) :
    Yields (nextSpan >>= f) c R := by
  obtain ⟨s, hs⟩ := nextSpan_run c
  exact .look hs (hf s)

theorem Yields.spanFrom {p : Position} {f : Span → Parser γ} (hf : ∀ s, Yields (f s) c R) :
    Yields (spanFrom p >>= f) c R :=
  .look (by rfl) (hf _)

theorem Yields.fail {cause : Cause} {production : Production} {s : Span} :
    Yields (fail cause production s : Parser γ) c R :=
  .error rfl

theorem Yields.unexpected {expected : List Expected} {production : Production} :
    Yields (unexpected expected production : Parser γ) c R :=
  .look (nextKind_run c) (.nextSpan fun _ => .fail)

theorem Yields.tooDeep {production : Production} :
    Yields (tooDeep production : Parser γ) c R :=
  .nextSpan fun _ => .fail

theorem yields_advance {t : TokenKind} (ht : c.kinds.head? = some t) :
    Yields advance c fun ts _ => ts = [t] := by
  intro x c' h
  obtain ⟨c'', hc, hk⟩ := advance_run c
  obtain ⟨rest, hr⟩ := List.head?_eq_some_iff.1 ht
  obtain rfl : c'' = c' := by
    rw [hc] at h
    exact congrArg Prod.snd (Except.ok.inj h)
  exact ⟨[t], by rw [hk, hr]; rfl, rfl⟩

/-- Taking a token whose kind is known. -/
theorem Yields.advance {f : Unit → Parser γ} {t : TokenKind} (ht : c.kinds.head? = some t)
    (hf : ∀ c', Yields (f ()) c' fun vs y => R (t :: vs) y) : Yields (advance >>= f) c R := by
  refine .bind (yields_advance ht) fun us _ c' hu => ?_
  subst hu
  exact hf c'

end Yields

/-! ## The right tokens are read -/

/-- Given the tokens `ts` with `rest` after them, the parser takes `ts` and
returns something with the property. -/
def Reads (p : Parser β) (ts rest : List TokenKind) (Q : β → Prop) : Prop :=
  ∀ c, c.kinds = ts ++ rest → ∃ x c', p c = .ok (x, c') ∧ c'.kinds = rest ∧ Q x

section Reads
variable {ts us rest : List TokenKind} {Q : β → Prop} {R : γ → Prop}

theorem Reads.pure {x : γ} (h : R x) : Reads (Pure.pure x) [] rest R :=
  fun c hc => ⟨x, c, rfl, hc, h⟩

theorem Reads.mono {p : Parser β} {Q' : β → Prop} (h : Reads p ts rest Q)
    (hq : ∀ x, Q x → Q' x) : Reads p ts rest Q' := by
  intro c hc
  obtain ⟨x, c', hp, hk, hx⟩ := h c hc
  exact ⟨x, c', hp, hk, hq x hx⟩

theorem Reads.bind {p : Parser β} {f : β → Parser γ} (hp : Reads p ts (us ++ rest) Q)
    (hf : ∀ x, Q x → Reads (f x) us rest R) : Reads (p >>= f) (ts ++ us) rest R := by
  intro c hc
  obtain ⟨x, c', h1, hk, hx⟩ := hp c (by rw [hc, List.append_assoc])
  obtain ⟨y, c'', h2, hk', hy⟩ := hf x hx c' hk
  exact ⟨y, c'', by rw [bind_ok h1, h2], hk', hy⟩

theorem Reads.bind_token {p : Parser β} {f : β → Parser γ} {t : TokenKind}
    (hp : Reads p [t] (us ++ rest) Q) (hf : ∀ x, Q x → Reads (f x) us rest R) :
    Reads (p >>= f) (t :: us) rest R :=
  Reads.bind hp hf

/-- The parser is the last step but for one that takes no token. -/
theorem Reads.bind_last {p : Parser β} {f : β → Parser γ} (hp : Reads p ts rest Q)
    (hf : ∀ x, Q x → Reads (f x) [] rest R) : Reads (p >>= f) ts rest R := by
  have h : Reads (p >>= f) (ts ++ []) rest R := .bind hp hf
  rwa [List.append_nil] at h

theorem Reads.look {p : Parser β} {f : β → Parser γ} {x : β}
    (hp : ∀ c, c.kinds = ts ++ rest → p c = .ok (x, c)) (hf : Reads (f x) ts rest R) :
    Reads (p >>= f) ts rest R := by
  intro c hc
  obtain ⟨y, c', h, hk, hy⟩ := hf c hc
  exact ⟨y, c', by rw [bind_ok (hp c hc), h], hk, hy⟩

theorem Reads.nextKind {f : Option TokenKind → Parser γ} {k : Option TokenKind}
    (hk : (ts ++ rest).head? = k) (hf : Reads (f k) ts rest R) :
    Reads (nextKind >>= f) ts rest R :=
  .look (fun c hc => by rw [nextKind_run, hc, hk]) hf

theorem Reads.isNext {p : Punctuator} {f : Bool → Parser γ}
    (h : (ts ++ rest).head? = some (.punctuator p)) (hf : Reads (f true) ts rest R) :
    Reads (nextIs p >>= f) ts rest R :=
  .look (fun c hc => by rw [nextIs_run, hc, h, beq_self_eq_true]) hf

theorem Reads.notNext {p : Punctuator} {f : Bool → Parser γ} (h : Avoids p (ts ++ rest))
    (hf : Reads (f false) ts rest R) : Reads (nextIs p >>= f) ts rest R :=
  .look (fun c hc => by rw [nextIs_run, hc, beq_eq_false_iff_ne.2 h]) hf

theorem Reads.isKeyword {word : String} {f : Bool → Parser γ} {b : Bool}
    (h : ((ts ++ rest).head? == some (.name word)) = b) (hf : Reads (f b) ts rest R) :
    Reads (nextIsKeyword word >>= f) ts rest R :=
  .look (fun c hc => by rw [nextIsKeyword_run, hc, h]) hf

theorem Reads.atEnd {f : Bool → Parser γ} {b : Bool} (h : endsHere (ts ++ rest) = b)
    (hf : Reads (f b) ts rest R) : Reads (atEnd >>= f) ts rest R :=
  .look (fun c hc => by rw [atEnd_run, hc, h]) hf

theorem Reads.nextSpan {f : Span → Parser γ} (hf : ∀ s, Reads (f s) ts rest R) :
    Reads (nextSpan >>= f) ts rest R := by
  intro c hc
  obtain ⟨s, hs⟩ := nextSpan_run c
  obtain ⟨y, c', h, hk, hy⟩ := hf s c hc
  exact ⟨y, c', by rw [bind_ok hs, h], hk, hy⟩

theorem Reads.spanFrom {p : Position} {f : Span → Parser γ} (hf : ∀ s, Reads (f s) ts rest R) :
    Reads (spanFrom p >>= f) ts rest R := by
  intro c hc
  obtain ⟨y, c', h, hk, hy⟩ := hf _ c hc
  exact ⟨y, c', by rw [bind_ok (x := ⟨p, c.last.getD p⟩) rfl, h], hk, hy⟩

/-- The number of tokens left bounds the number of those to be read. -/
theorem Reads.remaining {f : Nat → Parser γ}
    (hf : ∀ n, ts.length ≤ n → Reads (f n) ts rest R) :
    Reads (remaining >>= f) ts rest R := by
  intro c hc
  have hn : c.tokens.length = (ts ++ rest).length := by
    rw [← hc, Cursor.kinds, List.length_map]
  obtain ⟨y, c', h, hk, hy⟩ := hf c.tokens.length
    (by rw [hn, List.length_append]; omega) c hc
  exact ⟨y, c', by rw [bind_ok (x := c.tokens.length) rfl, h], hk, hy⟩

theorem Reads.advance {t : TokenKind} {f : Unit → Parser γ} (hf : Reads (f ()) ts rest R) :
    Reads (advance >>= f) (t :: ts) rest R := by
  intro c hc
  obtain ⟨c', hc', hk⟩ := advance_run c
  obtain ⟨y, c'', h, hk', hy⟩ := hf c' (by rw [hk, hc, List.cons_append, List.tail_cons])
  exact ⟨y, c'', by rw [bind_ok hc', h], hk', hy⟩

end Reads

end Parser

end QueryDoc
