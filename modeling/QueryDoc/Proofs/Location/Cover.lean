import QueryDoc.Proofs.Grammar.Soundness
import QueryDoc.Tree.Node

/-!
# The tokens under a node

A node stands for a stretch of tokens: its span reaches from the start of the
first to the end of the last, its children stand for parts of the stretch that
lie one after the other, and the kinds of the tokens derive it. `Covers` says
this of a node and of all nodes below it. `Takes` is the judgement about a parser
that leads there. It follows the text of a parser, as `Yields` does, but it keeps
the tokens with their spans, back to where the production at hand began, because
that is where the span of its node begins.
-/
namespace QueryDoc
open Grammar

variable {β γ : Type}

/-- A token that parsers take: neither the end of input nor an error. -/
def TokenKind.isProper : TokenKind → Bool
  | .endOfInput => false
  | .error _ _ => false
  | _ => true

theorem TokenKind.ne_endOfInput_of_isProper {k : TokenKind} (h : k.isProper = true) :
    k ≠ .endOfInput := by
  rintro rfl
  cases h

/-! ## Stretches of tokens -/

/-- Where the first of some tokens starts. -/
def startOf (ts : List Token) : Option Position := ts.head?.map fun t => t.span.start

/-- Where the last of some tokens ends. -/
def stopOf (ts : List Token) : Option Position := ts.getLast?.map fun t => t.span.stop

/-- The span of some tokens together. -/
def hull (ts : List Token) : Option Span := do return ⟨← startOf ts, ← stopOf ts⟩

section Hull
variable {ts us : List Token} {s : Span}

@[simp] theorem startOf_cons (t : Token) : startOf (t :: ts) = some t.span.start := rfl

theorem stopOf_append (ts us : List Token) : stopOf (ts ++ us) = (stopOf us).or (stopOf ts) := by
  rw [stopOf, List.getLast?_append, Option.map_or]
  rfl

theorem hull_eq_some : hull ts = some s ↔ startOf ts = some s.start ∧ stopOf ts = some s.stop := by
  obtain ⟨start, stop⟩ := s
  unfold hull
  cases startOf ts <;> cases stopOf ts <;> simp

theorem hull_singleton (t : Token) : hull [t] = some t.span := rfl

theorem ne_nil_of_startOf {p : Position} (h : startOf ts = some p) : ts ≠ [] := by
  rintro rfl
  cases h

theorem startOf_append {p : Position} (h : startOf ts = some p) (us : List Token) :
    startOf (ts ++ us) = some p := by
  cases ts with
  | nil => cases h
  | cons t ts => exact h

theorem hull_of_startOf {p : Position} (h : startOf ts = some p) :
    ∃ stop, stopOf ts = some stop ∧ hull ts = some ⟨p, stop⟩ := by
  have hne := ne_nil_of_startOf h
  refine ⟨(ts.getLast hne).span.stop, ?_, ?_⟩
  · rw [stopOf, List.getLast?_eq_some_getLast hne, Option.map_some]
  · rw [hull_eq_some, stopOf, List.getLast?_eq_some_getLast hne, Option.map_some]
    exact ⟨h, rfl⟩

end Hull

/-- Things that stand for parts of a list of tokens, one after the other. -/
inductive Scattered (P : List Token → β → Prop) : List Token → List β → Prop
  | gap (ts : List Token) : Scattered P ts []
  | item {ts : List Token} {x : β} : P ts x → Scattered P ts [x]
  | append {ts us : List Token} {xs ys : List β} :
      Scattered P ts xs → Scattered P us ys → Scattered P (ts ++ us) (xs ++ ys)

namespace Scattered
variable {P : List Token → β → Prop} {ts : List Token} {xs : List β}

theorem after (us : List Token) (h : Scattered P ts xs) : Scattered P (us ++ ts) xs :=
  .append (.gap us) h

theorem before (us : List Token) (h : Scattered P ts xs) : Scattered P (ts ++ us) xs := by
  simpa only [List.append_nil] using Scattered.append h (.gap us)

/-- What stands for a part stands for tokens in a row. -/
theorem exists_infix (h : Scattered P ts xs) : ∀ x ∈ xs, ∃ us, us <:+: ts ∧ P us x := by
  induction h with
  | gap ts => exact fun x hx => absurd hx List.not_mem_nil
  | @item ts x hx =>
    intro y hy
    obtain rfl := List.mem_singleton.1 hy
    exact ⟨ts, List.infix_rfl, hx⟩
  | @append ts us xs ys _ _ ihx ihy =>
    intro x hx
    rcases List.mem_append.1 hx with hx | hx
    · obtain ⟨vs, hvs, hp⟩ := ihx x hx
      exact ⟨vs, hvs.trans (List.prefix_append ts us).isInfix, hp⟩
    · obtain ⟨vs, hvs, hp⟩ := ihy x hx
      exact ⟨vs, hvs.trans (List.suffix_append ts us).isInfix, hp⟩

end Scattered

/-! ## Nodes over their tokens -/

/-- Tokens of these kinds derive the node. Nodes that cannot be parsed for
themselves are not asked for a derivation, and a document reaches beyond its
tokens. -/
def Node.Derives (kinds : List TokenKind) : Node Span → Prop
  | .name n => NameForm kinds (n.map forget)
  | .value v => Parser.Within (ValueForm false) Value.nesting maxDepth (Value.map forget) kinds v
  | .type t => Parser.Within TypeForm TypeRef.nesting maxDepth (TypeRef.map forget) kinds t
  | .selectionSet s =>
    Parser.Within SelectionSetForm SelectionSet.nesting maxDepth (SelectionSet.map forget) kinds s
  | .definition d =>
    Parser.Within DefinitionForm Definition.nesting maxDepth (Definition.map forget) kinds d
  | .document _ => False
  | _ => True

/-- The tree of a node stands for the tokens, and so on below it. -/
inductive Covers : List Token → Tree Span → Prop
  | mk {ts : List Token} {t : Tree Span} (n : Node Span) : n.toTree = t →
      hull ts = some t.info → Scattered Covers ts t.slots.flatten →
      n.Derives (ts.map Token.kind) → Covers ts t

/-- The tokens have the span of the node, and its children stand for parts of them. -/
structure Spreads (ts : List Token) (t : Tree Span) : Prop where
  hull : hull ts = some t.info
  children : Scattered Covers ts t.slots.flatten

namespace Covers
variable {ts : List Token} {t : Tree Span}

theorem of_spreads {n : Node Span} (h : Spreads ts n.toTree) (hn : n.Derives (ts.map Token.kind)) :
    Covers ts n.toTree :=
  .mk n rfl h.hull h.children hn

theorem spreads (h : Covers ts t) : Spreads ts t := by
  cases h with
  | mk n _ hull children _ => exact ⟨hull, children⟩

theorem derived (h : Covers ts t) :
    ∃ n : Node Span, n.toTree = t ∧ n.Derives (ts.map Token.kind) := by
  cases h with
  | mk n tree _ _ derives => exact ⟨n, tree, derives⟩

theorem startOf_eq (h : Covers ts t) : startOf ts = some t.info.start :=
  (hull_eq_some.1 h.spreads.hull).1

end Covers

/-! ## Taking tokens -/

/-- From `o` on the tokens `ts` have been taken, and no other, when a parser has
come to `c`. -/
structure Cursor.Took (o : Cursor) (ts : List Token) (c : Cursor) : Prop where
  tokens : o.tokens = ts ++ c.tokens
  last : c.last = (stopOf ts).or o.last
  proper : ∀ t ∈ ts, t.kind.isProper = true

namespace Cursor.Took
variable {o c c' : Cursor} {ts us : List Token}

theorem refl (c : Cursor) : c.Took [] c := ⟨rfl, rfl, by simp⟩

theorem trans (h : o.Took ts c) (h' : c.Took us c') : o.Took (ts ++ us) c' where
  tokens := by rw [h.tokens, h'.tokens, List.append_assoc]
  last := by rw [h'.last, h.last, stopOf_append, Option.or_assoc]
  proper := List.forall_mem_append.2 ⟨h.proper, h'.proper⟩

theorem kinds (h : o.Took ts c) : o.kinds = ts.map Token.kind ++ c.kinds := by
  rw [Cursor.kinds, h.tokens, List.map_append]
  rfl

end Cursor.Took

namespace Parser

/-- Come from `o` to `c` by taking `ts`, a parser that returns has taken tokens
from `o` on that are in the relation to its result. -/
def Takes (p : Parser β) (o : Cursor) (ts : List Token) (c : Cursor)
    (R : List Token → β → Prop) : Prop :=
  o.Took ts c → ∀ x c', p c = .ok (x, c') → ∃ us, o.Took us c' ∧ R us x

/-- The node read next begins at the position. -/
def Begins (c : Cursor) (p : Position) : Prop :=
  ∀ ts, ts ≠ [] → ts <+: c.tokens → startOf ts = some p

namespace Takes
variable {o c : Cursor} {ts : List Token} {R : List Token → γ → Prop}

theorem mono {p : Parser β} {P Q : List Token → β → Prop} (h : Takes p o ts c P)
    (hq : ∀ us x, P us x → Q us x) : Takes p o ts c Q := by
  intro hc x c' hp
  obtain ⟨us, hu, hx⟩ := h hc x c' hp
  exact ⟨us, hu, hq us x hx⟩

theorem pure {x : γ} (h : R ts x) : Takes (Pure.pure x) o ts c R := by
  intro hc y c' hp
  cases hp
  exact ⟨ts, hc, h⟩

theorem andThen {p : Parser β} {f : β → Parser γ} {P : List Token → β → Prop}
    (hp : Takes p o ts c P) (hf : ∀ us x c', P us x → Takes (f x) o us c' R) :
    Takes (p >>= f) o ts c R := by
  intro hc y c'' h
  obtain ⟨x, c', h1, h2⟩ := bind_eq_ok h
  obtain ⟨us, hu, hx⟩ := hp hc x c' h1
  exact hf us x c' hx hu y c'' h2

/-- A part of a production that is a production itself. -/
theorem bind {p : Parser β} {f : β → Parser γ} {P : List Token → β → Prop}
    (hp : Takes p c [] c P) (hf : ∀ us x c', P us x → Takes (f x) o (ts ++ us) c' R) :
    Takes (p >>= f) o ts c R := by
  have part : Takes p o ts c fun us x => ∃ vs, us = ts ++ vs ∧ P vs x := by
    intro hc x c' h
    obtain ⟨vs, hv, hx⟩ := hp (.refl c) x c' h
    exact ⟨ts ++ vs, hc.trans hv, vs, rfl, hx⟩
  refine part.andThen fun us x c' h => ?_
  obtain ⟨vs, rfl, hx⟩ := h
  exact hf vs x c' hx

theorem error {p : Parser β} {P : List Token → β → Prop} {e : Fault} (h : p c = .error e) :
    Takes p o ts c P := by
  intro _ x c' hp
  rw [h] at hp
  cases hp

/-- A step that takes no token. -/
theorem look {p : Parser β} {f : β → Parser γ} {x : β} (hp : p c = .ok (x, c))
    (hf : Takes (f x) o ts c R) : Takes (p >>= f) o ts c R := by
  intro hc y c' h
  rw [bind_ok hp] at h
  exact hf hc y c' h

theorem nextSpan {f : Span → Parser γ} (hf : ∀ s, Takes (f s) o ts c R) :
    Takes (nextSpan >>= f) o ts c R := by
  obtain ⟨s, hs⟩ := nextSpan_run c
  exact .look hs (hf s)

/-- A production that looks at the span of its first token. -/
theorem startSpan {f : Span → Parser γ} (hf : ∀ s, Begins c s.start → Takes (f s) c [] c R) :
    Takes (Parser.nextSpan >>= f) c [] c R := by
  have hs : ∃ s, Parser.nextSpan c = .ok (s, c) ∧ Begins c s.start := by
    unfold Parser.nextSpan Begins
    split
    · rename_i t rest h
      refine ⟨t.span, rfl, fun us hne hu => ?_⟩
      rw [h] at hu
      obtain ⟨vs, hvs⟩ := hu
      cases us with
      | nil => exact absurd rfl hne
      | cons u us => rw [startOf_cons, (List.cons.inj hvs).1]
    · rename_i h
      refine ⟨_, rfl, fun us hne hu => ?_⟩
      rw [h] at hu
      exact absurd (List.prefix_nil.1 hu) hne
  obtain ⟨s, hs, begins⟩ := hs
  exact .look hs (hf s begins)

theorem fail {cause : Cause} {production : Production} {s : Span} :
    Takes (fail cause production s : Parser γ) o ts c R :=
  .error rfl

theorem unexpected {expected : List Expected} {production : Production} :
    Takes (unexpected expected production : Parser γ) o ts c R :=
  .look (nextKind_run c) (.nextSpan fun _ => .fail)

theorem tooDeep {production : Production} : Takes (tooDeep production : Parser γ) o ts c R :=
  .nextSpan fun _ => .fail

/-- Taking the next token. -/
theorem advance_next {f : Unit → Parser γ} {t : Token} (ht : c.tokens.head? = some t)
    (proper : t.kind.isProper = true) (hf : ∀ c', Takes (f ()) o (ts ++ [t]) c' R) :
    Takes (Parser.advance >>= f) o ts c R := by
  intro hc y c'' h
  obtain ⟨rest, hrest⟩ := List.head?_eq_some_iff.1 ht
  have step : Parser.advance c = .ok ((), ⟨rest, some t.span.stop⟩) := by
    rw [Parser.advance, hrest]
  have took : c.Took [t] ⟨rest, some t.span.stop⟩ :=
    ⟨hrest, rfl, List.forall_mem_singleton.2 proper⟩
  rw [bind_ok step] at h
  exact hf _ (hc.trans took) y c'' h

theorem exists_next {k : TokenKind} (hk : c.kinds.head? = some k) :
    ∃ t, c.tokens.head? = some t ∧ t.kind = k := by
  rw [Cursor.kinds, List.head?_map] at hk
  exact Option.map_eq_some_iff.1 hk

/-- Taking a token whose kind is known. -/
theorem advance {f : Unit → Parser γ} {k : TokenKind} (hk : c.kinds.head? = some k)
    (proper : k.isProper = true)
    (hf : ∀ t c', t.kind = k → Takes (f ()) o (ts ++ [t]) c' R) :
    Takes (Parser.advance >>= f) o ts c R := by
  obtain ⟨t, ht, rfl⟩ := exists_next hk
  exact advance_next ht proper fun c' => hf t c' rfl

/-- Taking a token whose kind is known, after a look at its span. -/
theorem token {f : Span → Unit → Parser γ} {k : TokenKind} (hk : c.kinds.head? = some k)
    (proper : k.isProper = true)
    (hf : ∀ t c', t.kind = k → Takes (f t.span ()) o (ts ++ [t]) c' R) :
    Takes (Parser.nextSpan >>= fun s => Parser.advance >>= f s) o ts c R := by
  obtain ⟨t, ht, rfl⟩ := exists_next hk
  obtain ⟨rest, hrest⟩ := List.head?_eq_some_iff.1 ht
  have span : Parser.nextSpan c = .ok (t.span, c) := by rw [Parser.nextSpan, hrest]
  exact .look span (advance_next ht proper fun c' => hf t c' rfl)

/-- The span of a node ends where the last of its tokens ends. -/
theorem spanFrom {p : Position} {f : Span → Parser γ}
    (hp : ts <+: o.tokens → startOf ts = some p)
    (hf : ∀ s, s.start = p → hull ts = some s → Takes (f s) o ts c R) :
    Takes (spanFrom p >>= f) o ts c R := by
  intro hc
  -- there is a last token, so the parser does not fall back on the start
  obtain ⟨stop, hstop, hhull⟩ := hull_of_startOf (hp ⟨_, hc.tokens.symm⟩)
  have last : c.last.getD p = stop := by rw [hc.last, hstop, Option.some_or, Option.getD_some]
  refine Takes.look (x := ⟨p, stop⟩) ?_ (hf _ rfl hhull) hc
  rw [Parser.spanFrom, last]

/-- What a parser yields holds of the kinds of the tokens it takes. -/
theorem and_yields {p : Parser β} {P : List Token → β → Prop} {F : List TokenKind → β → Prop}
    (h : Takes p c [] c P) (hy : Yields p c F) :
    Takes p c [] c fun us x => P us x ∧ F (us.map Token.kind) x := by
  intro hc x c' hp
  obtain ⟨us, hu, hx⟩ := h hc x c' hp
  obtain ⟨ks, hk, hf⟩ := hy x c' hp
  refine ⟨us, hu, hx, ?_⟩
  rw [hu.kinds] at hk
  exact List.append_cancel_right hk ▸ hf

end Takes

end Parser

end QueryDoc
