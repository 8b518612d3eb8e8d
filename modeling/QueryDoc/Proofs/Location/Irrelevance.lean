import QueryDoc.Proofs.Location.Seen
import QueryDoc.Proofs.Tree.Map
import QueryDoc.Proofs.Tree.Walk

/-!
# Locations do not matter

What nodes carry is only carried along, so parsing with locations and without
gives the same tree apart from them, or the same error. Seen without places,
tokens of the same kinds are the same, so without locations the result depends on
the kinds of the tokens only. The kinds need not even be the same in the places
that the notes of a lexical error point at.
-/
namespace QueryDoc

/-- The note without the place it points at. -/
def Note.unplaced (n : Note) : Note := { n with span := none }

/-- The kind of a token without the places in its notes. -/
def TokenKind.unplaced : TokenKind → TokenKind
  | .error message notes => .error message (notes.map Note.unplaced)
  | kind => kind

def Cause.unplaced : Cause → Cause
  | .lexical message notes => .lexical message (notes.map Note.unplaced)
  | cause => cause

/-- What a fault says apart from places. -/
def Fault.unplaced (f : Fault) : Fault :=
  ⟨f.cause.unplaced, f.production, .emptyAt .zero, f.remarks.map Note.unplaced⟩

theorem Cause.message_unplaced (c : Cause) : c.unplaced.message = c.message := by
  cases c <;> rfl

theorem Cause.summary_unplaced (c : Cause) : c.unplaced.summary = c.summary := by
  cases c <;> rfl

theorem Cause.notes_unplaced (c : Cause) :
    c.unplaced.notes.map Note.unplaced = c.notes.map Note.unplaced := by
  cases c with
  | lexical message list => exact List.map_map
  | _ => rfl

/-! ## The view without places -/

namespace View

/-- Neither tokens nor notes are seen to stand anywhere. -/
def unplaced : View := placeless Note.unplaced

theorem kind_unplaced (k : TokenKind) : unplaced.kind k = k.unplaced := by
  cases k <;> rfl

/-- Faults that are seen as the same say the same. -/
theorem fault_unplaced {f f' : Fault} (h : unplaced.fault f = unplaced.fault f') :
    f.unplaced = f'.unplaced := by
  have cause_unplaced (c : Cause) : unplaced.cause c = c.unplaced := by cases c <;> rfl
  obtain ⟨causes, productions, -, remarks⟩ := Fault.mk.inj h
  rw [cause_unplaced, cause_unplaced] at causes
  simp only [Fault.unplaced, causes, productions, remarks]

theorem unplaced_endOfInput (k : TokenKind) : k.unplaced = .endOfInput ↔ k = .endOfInput := by
  cases k <;> simp [TokenKind.unplaced]

/-- Tokens of the same kinds are seen as the same tokens. -/
theorem tokens_of_kinds {tokens tokens' : List Token}
    (same : tokens.map (fun t => t.kind.unplaced) = tokens'.map fun t => t.kind.unplaced)
    (last last' : Option Position) :
    unplaced.tokens last tokens = unplaced.tokens last' tokens' := by
  induction tokens generalizing tokens' last last' with
  | nil =>
    obtain rfl := List.map_eq_nil_iff.1 same.symm
    rfl
  | cons t rest ih =>
    cases tokens' with
    | nil => exact nomatch same
    | cons t' rest' =>
      obtain ⟨kinds, same⟩ := List.cons.inj same
      replace kinds : t.kind.unplaced = t'.kind.unplaced := kinds
      have seen : unplaced.token t = unplaced.token t' := by
        simp only [token, kind_unplaced, kinds]
        rfl
      have ends : t.kind = .endOfInput ↔ t'.kind = .endOfInput := by
        rw [← unplaced_endOfInput, kinds, unplaced_endOfInput]
      simp only [View.tokens, seen, ends, ih same _ (some t'.span.stop)]

end View

/-! ## Parsing with locations and without -/

/-- The node without what its nodes carry. -/
def Node.unlocated {α : Type} (n : Node α) : Node (Option Location) := n.map fun _ => none

theorem Node.locate_unlocated (n : Node Span) (source : Source) :
    n.map (ParseOptions.unlocated.locate source) = n.unlocated := rfl

/-- Outcomes of parsing that are the same result, or errors that say the same
apart from places. -/
inductive SayTheSame {β : Type} : Except ParseError β → Except ParseError β → Prop where
  | ok (x : β) : SayTheSame (.ok x) (.ok x)
  | error {e e' : ParseError} (message : e.message = e'.message)
    (summary : e.cause.summary = e'.cause.summary)
    (cause : e.cause.unplaced = e'.cause.unplaced) (production : e.production = e'.production)
    (notes : e.notes.map Note.unplaced = e'.notes.map Note.unplaced) :
    SayTheSame (.error e) (.error e')

theorem SayTheSame.of_unplaced {β : Type} {e e' : Fault} (h : e.unplaced = e'.unplaced)
    (source source' : Source) :
    SayTheSame (.error ⟨e, source⟩ : Except ParseError β) (.error ⟨e', source'⟩) := by
  obtain ⟨cause, production, -, remarks⟩ := Fault.mk.inj h
  refine .error ?_ ?_ cause production ?_
  · exact (e.cause.message_unplaced).symm.trans
      ((congrArg Cause.message cause).trans e'.cause.message_unplaced)
  · exact (e.cause.summary_unplaced).symm.trans
      ((congrArg Cause.summary cause).trans e'.cause.summary_unplaced)
  · have causes : e.cause.notes.map Note.unplaced = e'.cause.notes.map Note.unplaced := by
      rw [← e.cause.notes_unplaced, cause, e'.cause.notes_unplaced]
    simp only [ParseError.notes, ParseError.cause, List.map_append, causes, remarks]

section Placeless

variable (entry : Entry) {tokens tokens' : List Token}

/-- Tokens that are the same without places form trees that are the same without locations,
or are at fault in the same way. -/
theorem Parser.run_placeless {note : Note → Note}
    (same : (View.placeless note).tokens none tokens = (View.placeless note).tokens none tokens')
    (source source' : Source) :
    (∃ n n', (whole entry).run source tokens = .ok n ∧ (whole entry).run source' tokens' = .ok n' ∧
      n.unlocated = n'.unlocated) ∨
    ∃ f f', (whole entry).run source tokens = .error ⟨f, source⟩ ∧
      (whole entry).run source' tokens' = .error ⟨f', source'⟩ ∧
      (View.placeless note).fault f = (View.placeless note).fault f' := by
  have seen : whole entry ((View.placeless note).cursor ⟨tokens, none⟩) =
      whole entry ((View.placeless note).cursor ⟨tokens', none⟩) := by
    rw [View.cursor, View.cursor, same]
  rw [sees_whole entry, sees_whole entry] at seen
  rcases View.outcome_alike _ seen with ⟨n, n', c, c', hn, hn', trees⟩ | ⟨f, f', hf, hf', faults⟩
  · refine .inl ⟨n, n', by rw [run, hn], by rw [run, hn'], ?_⟩
    have erased := congrArg Node.unlocated trees
    simpa only [Node.unlocated, Node.map_map] using erased
  · exact .inr ⟨f, f', by rw [run, hf], by rw [run, hf'], faults⟩

/-- Without locations, the outcome depends on the kinds of the tokens only. -/
theorem Node.ofTokens_of_kinds (source source' : Source)
    (same : tokens.map (fun t => t.kind.unplaced) = tokens'.map fun t => t.kind.unplaced) :
    SayTheSame (Node.ofTokens entry .unlocated source tokens)
      (Node.ofTokens entry .unlocated source' tokens') := by
  rw [ofTokens_eq, ofTokens_eq]
  rcases Parser.run_placeless entry (View.tokens_of_kinds same none none) source source' with
    ⟨n, n', hn, hn', trees⟩ | ⟨f, f', hf, hf', faults⟩
  · rw [hn, hn', Except.map, Except.map, locate_unlocated, locate_unlocated, trees]
    exact .ok _
  · rw [hf, hf']
    exact .of_unplaced (View.fault_unplaced faults) source source'

end Placeless

/-- **Locations never influence parsing.** Parsing without locations gives the
outcome of parsing with them, the same error or the tree with every location
erased, and then no node has one. Lists of tokens whose kinds are the same, apart
from the places that the notes of lexical errors point at, give the same tree or
errors that say the same. -/
theorem locations_never_matter (entry : Entry) (source : Source) :
    Node.parse entry .unlocated source =
      (Node.parse entry .standard source).map (Node.map fun _ => none) ∧
    (∀ tokens, Node.ofTokens entry .unlocated source tokens =
      (Node.ofTokens entry .standard source tokens).map (Node.map fun _ => none)) ∧
    (∀ tokens n, Node.ofTokens entry .unlocated source tokens = .ok n →
      ∀ x ∈ n.toTree.nodes, x.2.info = none) ∧
    (∀ source' tokens tokens',
      tokens.map (fun t => t.kind.unplaced) = tokens'.map (fun t => t.kind.unplaced) →
      SayTheSame (Node.ofTokens entry .unlocated source tokens)
        (Node.ofTokens entry .unlocated source' tokens')) := by
  have erased : ∀ tokens, Node.ofTokens entry .unlocated source tokens =
      (Node.ofTokens entry .standard source tokens).map (Node.map fun _ => none) := by
    intro tokens
    rw [Node.ofTokens_eq, Node.ofTokens_eq]
    cases (Parser.whole entry).run source tokens with
    | error e => rfl
    | ok n =>
      exact congrArg Except.ok (Node.map_map (ParseOptions.standard.locate source) _ n).symm
  refine ⟨erased _, erased, fun tokens n hn => ?_, fun source' tokens tokens' same =>
    Node.ofTokens_of_kinds entry source source' same⟩
  rw [erased tokens] at hn
  cases located : Node.ofTokens entry .standard source tokens with
  | error e =>
    rw [located] at hn
    exact nomatch hn
  | ok m =>
    rw [located] at hn
    obtain rfl := Except.ok.inj hn
    rw [Node.toTree_map, Tree.nodes_map, List.forall_mem_map]
    exact fun x _ => Tree.info_map _ _

/-- An empty span at a byte of the first line. -/
def pointAt (n : Nat) : Span := .emptyAt ⟨0, n, n, n⟩

/-- A name is the same value wherever its token stands, and text that forms no
token is the same error wherever its notes point. -/
theorem movedTokens_sayTheSame :
    (∀ x ∈ (Node.value (.enum "a" none) : Node (Option Location)).toTree.nodes,
      x.2.info = none) ∧
    SayTheSame
      (Node.ofTokens .value .unlocated (.ofText "a") [⟨.name "a", pointAt 0⟩])
      (Node.ofTokens .value .unlocated (.ofText " a") [⟨.name "a", pointAt 1⟩]) ∧
    SayTheSame
      (Node.ofTokens .value .unlocated (.ofText "a")
        [⟨.error "stray" [.pointing "here" (pointAt 0)], pointAt 0⟩])
      (Node.ofTokens .value .unlocated (.ofText " a")
        [⟨.error "stray" [.pointing "here" (pointAt 1)], pointAt 1⟩]) := by
  obtain ⟨-, -, nowhere, same⟩ := locations_never_matter .value (.ofText "a")
  exact ⟨nowhere [⟨.name "a", pointAt 0⟩] _ rfl, same _ _ _ rfl, same _ _ _ rfl⟩

end QueryDoc
