import QueryDoc.Proofs.Grammar.Acceptance
import QueryDoc.Proofs.Grammar.Spelling
import QueryDoc.Proofs.Lexical.Seam

/-!
# Values without variables

Where a value must be constant it is read as any other value is, and a variable in it is an
error. So what is read there is what is read anywhere, if it holds no variable, and nothing
else; in particular the limit of the nesting is the same. `Restricts` says this of two
parsers, and holds of values because it holds of their items and fields.
-/
namespace QueryDoc

namespace Parser

/-- Whatever the parser returns has the property. -/
def Returns {β : Type} (p : Parser β) (P : β → Prop) : Prop := ∀ c x c', p c = .ok (x, c') → P x

/-- The one parser returns what the other does if it has the property, and nothing else. -/
def Restricts {β : Type} (p q : Parser β) (P : β → Prop) : Prop :=
  ∀ c x c', p c = .ok (x, c') ↔ q c = .ok (x, c') ∧ P x

/-! ## Rules -/

section Rules
variable {β γ : Type} {p q : Parser β} {f g : β → Parser γ} {P : γ → Prop} {Q : β → Prop}

theorem Returns.pure {y : γ} (h : P y) : Returns (Pure.pure y) P := by
  intro c x c' hx
  cases hx
  exact h

theorem Returns.after (h : ∀ x, Returns (f x) P) : Returns (p >>= f) P := by
  intro c y c' hy
  obtain ⟨x, c₁, -, hf⟩ := bind_eq_ok hy
  exact h x c₁ y c' hf

theorem Returns.fail {cause : Cause} {production : Production} {span : Span} :
    Returns (fail cause production span) P := fun _ _ _ h => nomatch h

theorem Returns.unexpected {expected : List Expected} {production : Production} :
    Returns (unexpected expected production) P := .after fun _ => .after fun _ => .fail

theorem bind_eq_ok_iff {c : Cursor} {r : γ × Cursor} :
    (p >>= f) c = .ok r ↔ ∃ x c', p c = .ok (x, c') ∧ f x c' = .ok r := by
  refine ⟨bind_eq_ok, ?_⟩
  rintro ⟨x, c', hp, hf⟩
  rw [bind_ok hp, hf]

theorem Restricts.of_returns (h : Returns p Q) : Restricts p p Q :=
  fun c x c' => ⟨fun hp => ⟨hp, h c x c' hp⟩, And.left⟩

/-- The one parser stops where the other returns nothing with the property. -/
theorem Restricts.of_never (hp : Returns p fun _ => False) (hq : Returns q fun x => ¬ Q x) :
    Restricts p q Q :=
  fun c x c' => ⟨fun h => (hp c x c' h).elim, fun h => (hq c x c' h.1 h.2).elim⟩

/-- The parsers begin alike. -/
theorem Restricts.after (h : ∀ x, Restricts (f x) (g x) P) : Restricts (p >>= f) (p >>= g) P := by
  intro c y c'
  simp only [bind_eq_ok_iff, h _ _ _ _]
  constructor
  · rintro ⟨x, c₁, hp, hg, hP⟩
    exact ⟨⟨x, c₁, hp, hg⟩, hP⟩
  · rintro ⟨⟨x, c₁, hp, hg⟩, hP⟩
    exact ⟨x, c₁, hp, hg, hP⟩

/-- The parsers go on alike, and the result has its property if what they began with has. -/
theorem Restricts.before (h : Restricts p q Q) (hf : ∀ x, Returns (f x) fun y => P y ↔ Q x) :
    Restricts (p >>= f) (q >>= f) P := by
  intro c y c'
  simp only [bind_eq_ok_iff, h _ _ _]
  constructor
  · rintro ⟨x, c₁, ⟨hq, hQ⟩, hy⟩
    exact ⟨⟨x, c₁, hq, hy⟩, (hf x c₁ y c' hy).2 hQ⟩
  · rintro ⟨⟨x, c₁, hq, hy⟩, hP⟩
    exact ⟨x, c₁, ⟨hq, (hf x c₁ y c' hy).1 hP⟩, hy⟩

/-- One item after the other, all of them with the property. -/
theorem Restricts.manyUntil (h : Restricts p q Q) (close : Punctuator) (production : Production)
    (n : Nat) :
    Restricts (manyUntil close production p n) (manyUntil close production q n)
      fun xs => ∀ x ∈ xs, Q x := by
  induction n with
  | zero => exact .of_returns (.pure (by simp))
  | succ n ih =>
    refine .after fun closed => ?_
    split
    · exact .of_returns (.pure (by simp))
    refine .after fun ended => ?_
    split
    · exact .of_returns .unexpected
    intro c ys c'
    simp only [bind_eq_ok_iff, h _ _ _, ih _ _ _]
    constructor
    · rintro ⟨x, c₁, ⟨hx, hQ⟩, xs, c₂, ⟨hxs, hQs⟩, hret⟩
      cases hret
      exact ⟨⟨x, c₁, hx, xs, _, hxs, rfl⟩, List.forall_mem_cons.2 ⟨hQ, hQs⟩⟩
    · rintro ⟨⟨x, c₁, hx, xs, c₂, hxs, hret⟩, hall⟩
      cases hret
      obtain ⟨hQ, hQs⟩ := List.forall_mem_cons.1 hall
      exact ⟨x, c₁, ⟨hx, hQ⟩, xs, _, ⟨hxs, hQs⟩, rfl⟩

end Rules

/-! ## Values -/

section Values
variable {α : Type} [Carried α] {item item' : Parser (Value α)}

theorem literal_returns {form : α → Value α} (h : ∀ info, (form info).isConst = true) :
    Returns (literal form) (·.isConst = true) :=
  .after fun _ => .after fun _ => .pure (h _)

theorem listValue_restricts (h : Restricts item item' (·.isConst = true)) :
    Restricts (listValue item) (listValue item') (·.isConst = true) := by
  refine .after fun start => .after fun n => .before (h.manyUntil _ _ _) fun items => ?_
  refine .after fun _ => .after fun _ => .pure ?_
  rw [Value.isConst, Value.allConst_iff]

theorem objectField_restricts (h : Restricts item item' (·.isConst = true)) :
    Restricts (objectField item) (objectField item') (·.isConst = true) := by
  refine .after fun start => .after fun name => .after fun _ => .before h fun v => ?_
  exact .after fun _ => .pure (by rw [ObjectField.isConst])

theorem objectValue_restricts (h : Restricts item item' (·.isConst = true)) :
    Restricts (objectValue item) (objectValue item') (·.isConst = true) := by
  refine .after fun start => .after fun n =>
    .before ((objectField_restricts h).manyUntil _ _ _) fun fields => ?_
  refine .after fun _ => .after fun _ => .pure ?_
  rw [Value.isConst, ObjectField.allConst_iff]

/-- Where a value must be constant, it is read as anywhere if it is. -/
theorem value_restricts {context : ValueContext} (hcontext : context ≠ .anyValue) (room : Nat) :
    Restricts (value context room : Parser (Value α)) (value .anyValue room)
      (·.isConst = true) := by
  induction room with
  | zero => exact .of_returns (.after fun _ => .fail)
  | succ room ih =>
    refine .after fun kind => ?_
    split
    case h_1 =>
      -- the only place where the context is looked at
      rw [if_neg hcontext, if_pos rfl]
      exact .of_never (.after fun _ => .fail) (.after fun v => .pure (by simp [Value.isConst]))
    case h_2 => exact listValue_restricts ih
    case h_3 => exact objectValue_restricts ih
    case h_6 => exact .of_returns (.after fun s => .pure rfl)
    case h_10 => exact .of_returns .unexpected
    all_goals exact .of_returns (literal_returns fun _ => rfl)

theorem wholeValue_restricts {context : ValueContext} (hcontext : context ≠ .anyValue) :
    Restricts (wholeValue context : Parser (Value α)) (wholeValue .anyValue)
      (·.isConst = true) :=
  .before (value_restricts hcontext maxDepth) fun _ => .after fun _ => .pure Iff.rfl

end Values

end Parser

/-! ## Entry points -/

variable {options : ParseOptions} {source : Source}

theorem Value.parseConst_eq_ok {v : Value (Option Location)} :
    Value.parseConst options source = .ok v ↔
      Value.parse options source = .ok v ∧ v.isConst = true := by
  let _ := options.carried source
  have hconstant : ValueContext.constantValue ≠ .anyValue := by decide
  rw [parseConst, constOfTokens_eq_run, parse, ofTokens_eq_run, Parser.run_eq_ok,
    Parser.run_eq_ok, ← exists_and_right]
  exact exists_congr fun c => Parser.wholeValue_restricts hconstant _ v c

theorem Document.parse_derived {d : Document (Option Location)}
    (h : Document.parse options source = .ok d) :
    ∃ ts, Grammar.DocumentForm ts (d.map forget) := by
  rw [parse, ofTokens_eq] at h
  cases hrun : Parser.document.run source (tokenize source.body) with
  | error e =>
    rw [hrun] at h
    cases h
  | ok n =>
    rw [hrun] at h
    obtain rfl := Except.ok.inj h
    obtain ⟨c, hc⟩ := Parser.run_eq_ok.1 hrun
    obtain ⟨ts, -, hform, -⟩ := Parser.document_sound hc
    exact ⟨ts, by rwa [Document.map_map]⟩

theorem Grammar.DocumentForm.isConst {ts : List TokenKind} {d : Document Unit}
    (h : DocumentForm ts d) {o : Operation Unit} (ho : .operation o ∈ d.definitions)
    {x : VariableDefinition Unit} (hx : x ∈ o.variableDefinitions) :
    (∀ v ∈ x.default, v.isConst = true) ∧ ∀ y ∈ x.directives, y.IsConst := by
  obtain ⟨hdefinitions, -⟩ := h
  obtain ⟨us, -, ⟨hoperation⟩⟩ := hdefinitions.mem ho
  cases hoperation with
  | short => exact nomatch hx
  | full _ _ hvariables =>
    obtain ⟨vs, -, hvariable⟩ := hvariables.mem hx
    exact hvariable.isConst

/-- **Constants are the values without variables.** A constant is parsed if and only if it is
parsed as a value and holds no variable, and then it is the same; and in a document that is
parsed no default value of a variable and no argument of a directive on it holds one. -/
theorem constants_variableFree (options : ParseOptions) (source : Source) :
    (∀ v, Value.parseConst options source = .ok v ↔
      Value.parse options source = .ok v ∧ v.isConst = true) ∧
    ∀ d, Document.parse options source = .ok d →
      ∀ o, .operation o ∈ d.definitions → ∀ x ∈ o.variableDefinitions,
        (∀ v ∈ x.default, v.isConst = true) ∧ ∀ y ∈ x.directives, y.IsConst := by
  refine ⟨fun v => Value.parseConst_eq_ok, fun d h o ho x hx => ?_⟩
  obtain ⟨ts, hform⟩ := Document.parse_derived h
  have ho' : .operation (o.map forget) ∈ (d.map forget).definitions := List.mem_map_of_mem ho
  have hx' : x.map forget ∈ (o.map forget).variableDefinitions := List.mem_map_of_mem hx
  simpa [VariableDefinition.map] using hform.isConst ho' hx'

/-- A variable with a default value. -/
def defaultOne : Source := .ofText "query($a:I=1)\x7bf\x7d"

theorem defaultOne_variableFree :
    ∃ d o x, Document.parse .unlocated defaultOne = .ok d ∧ .operation o ∈ d.definitions ∧
      x ∈ o.variableDefinitions ∧ x.default = some (.int "1" none) ∧
      ∀ v ∈ x.default, v.isConst = true := by
  have chars : defaultOne.body.toList = ['q', 'u', 'e', 'r', 'y', '(', '$', 'a', ':', 'I', '=',
    '1', ')', '\x7b', 'f', '\x7d'] := by decide
  have parsed : Document.parse .unlocated defaultOne = .ok ⟨[.operation ⟨none, .query, none,
      [⟨none, ⟨⟨"a", none⟩, none⟩, .nullable (.named ⟨⟨"I", none⟩, none⟩),
        some (.int "1" none), [], none⟩],
      [], .mk [.field none ⟨"f", none⟩ [] [] none none] none, none⟩], none⟩ := by
    rw [Document.parse, Document.ofTokens_eq_run, tokenize, Token.listOf, chars,
      Lexical.listFrom_cons (c := 'q') rfl, Lexical.listFrom_cons (c := '(') rfl,
      Lexical.listFrom_cons (c := '$') rfl, Lexical.listFrom_cons (c := 'a') rfl,
      Lexical.listFrom_cons (c := ':') rfl, Lexical.listFrom_cons (c := 'I') rfl,
      Lexical.listFrom_cons (c := '=') rfl, Lexical.listFrom_cons (c := '1') rfl,
      Lexical.listFrom_cons (c := ')') rfl, Lexical.listFrom_cons (c := '\x7b') rfl,
      Lexical.listFrom_cons (c := 'f') rfl, Lexical.listFrom_cons (c := '\x7d') rfl,
      Lexical.listFrom_end rfl]
    rfl
  have constant := (constants_variableFree .unlocated defaultOne).2 _ parsed _
    List.mem_cons_self _ List.mem_cons_self
  exact ⟨_, _, _, parsed, List.mem_cons_self, List.mem_cons_self, rfl, constant.1⟩

end QueryDoc
