import QueryDoc.Proofs.Grammar.Carried

/-!
# One parser for what can be parsed

The four things that can be parsed are nodes. What their nodes carry is what is
made from the spans that they would carry instead, at all nodes alike.
-/
namespace QueryDoc

variable {α β γ : Type}

theorem Node.map_map (f : α → β) (g : β → γ) (n : Node α) :
    (n.map f).map g = n.map fun a => g (f a) := by
  cases n with
  | name n => rfl
  | document d => exact congrArg Node.document (d.map_map f g)
  | definition d => exact congrArg Node.definition (d.map_map f g)
  | variableDefinition v => exact congrArg Node.variableDefinition (v.map_map f g)
  | selectionSet s => exact congrArg Node.selectionSet (s.map_map f g)
  | selection s => exact congrArg Node.selection (s.map_map f g)
  | argument a => exact congrArg Node.argument (a.map_map f g)
  | value v => exact congrArg Node.value (v.map_map f g)
  | objectField x => exact congrArg Node.objectField (x.map_map f g)
  | directive d => exact congrArg Node.directive (d.map_map f g)
  | type t => exact congrArg Node.type (t.map_map f g)

namespace Parser

/-- The node that is to be parsed. -/
def whole [Carried α] : Entry → Parser (Node α)
  | .document => do return .document (← document)
  | .value => do return .value (← wholeValue .anyValue)
  | .constValue => do return .value (← wholeValue .constantValue)
  | .type => do return .type (← wholeType)

end Parser

theorem Node.ofTokens_eq (entry : Entry) (options : ParseOptions) (source : Source)
    (tokens : List Token) :
    Node.ofTokens entry options source tokens =
      ((Parser.whole entry).run source tokens).map (Node.map (options.locate source)) := by
  cases entry with
  | document =>
    rw [ofTokens, Document.ofTokens_eq, Parser.whole, bind_pure_comp, Parser.run_map]
    cases Parser.document.run source tokens <;> rfl
  | value =>
    rw [ofTokens, Value.ofTokens_eq, Parser.whole, bind_pure_comp, Parser.run_map]
    cases (Parser.wholeValue .anyValue).run source tokens <;> rfl
  | constValue =>
    rw [ofTokens, Value.constOfTokens_eq, Parser.whole, bind_pure_comp, Parser.run_map]
    cases (Parser.wholeValue .constantValue).run source tokens <;> rfl
  | type =>
    rw [ofTokens, TypeRef.ofTokens_eq, Parser.whole, bind_pure_comp, Parser.run_map]
    cases Parser.wholeType.run source tokens <;> rfl

end QueryDoc
