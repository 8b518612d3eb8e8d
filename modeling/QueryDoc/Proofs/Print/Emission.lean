import QueryDoc.Proofs.Grammar.Form
import QueryDoc.Proofs.Lexical.Seam
import QueryDoc.Proofs.Syntax.Strings
import QueryDoc.Proofs.Syntax.WellFormed

/-!
# What is printed belongs to the grammar

The text printed for a well-formed node lexes to tokens from which the grammar
derives the node again, with the text of its block strings replaced by what
their literals denote. The string tokens among them are the literals of the
node's strings. Depth enters through line breaks, which are insignificant, and
through these literals. Each production is one lemma, put together from the texts
of its parts along the seams between them.
-/
namespace QueryDoc
open Lexical Grammar

variable {α β γ : Type}

/-- The raw text of a string token. -/
def TokenKind.raw? : TokenKind → Option String
  | .string raw => some raw
  | _ => none

/-- The raw texts of the string tokens among some. -/
def rawStrings (kinds : List TokenKind) : List String := kinds.filterMap TokenKind.raw?

@[simp] theorem rawStrings_nil : rawStrings [] = [] := rfl

@[simp] theorem rawStrings_append (ks ls : List TokenKind) :
    rawStrings (ks ++ ls) = rawStrings ks ++ rawStrings ls := List.filterMap_append

@[simp] theorem rawStrings_punctuator (p : Punctuator) (ks : List TokenKind) :
    rawStrings (.punctuator p :: ks) = rawStrings ks := rfl

@[simp] theorem rawStrings_name (text : String) (ks : List TokenKind) :
    rawStrings (nameKind text :: ks) = rawStrings ks := by
  have hname := nameText_nameKind text
  have hraw : (nameKind text).raw? = none := by
    cases hk : nameKind text with
    | string raw =>
      rw [hk] at hname
      cases hname
    | _ => rfl
  exact List.filterMap_cons_none hraw

namespace Printer

/-- The literal as which a string is printed at a depth. -/
def literal (p : Nat × StringValue α) : String := stringValue p.1 p.2

/-- What the literal denotes as which the text of a block string is printed. -/
def reread (depth : Nat) (text : String) : String :=
  String.ofList (StringLiteral.dedent (StringLiteral.escapeTriples
    (StringLiteral.blockContent (2 * depth) text.toList)))

/-- The text lexes to tokens from which the node is derived, and the string
tokens among them are the literals of the strings. -/
def Prints (text : String) (P : List TokenKind → β → Prop) (x : β)
    (strings : List (Nat × StringValue α)) : Prop :=
  ∃ ts, Emits text ts ∧ P ts x ∧ rawStrings ts = strings.map literal

/-! ## Seams -/

theorem isInsignificant_space : IsInsignificant " " := by
  simp [IsInsignificant]
  decide

theorem isInsignificant_comma : IsInsignificant ", " := by
  simp [IsInsignificant]
  decide

theorem feeds_space : Feeds " " [] := .gap isInsignificant_space

theorem feeds_colon : Feeds ": " [.punctuator .colon] := by
  have htext : ": " = Punctuator.colon.text ++ " " := rfl
  rw [htext]
  exact (Feeds.punctuator .colon).feeds feeds_space

theorem isInsignificant_lineFeed (depth : Nat) : IsInsignificant (lineFeed depth) := by
  intro c hc
  simp only [lineFeed, String.toList_append, String.toList_ofList, List.mem_append] at hc
  rcases hc with hc | hc
  · obtain rfl : c = '\n' := by simpa using hc
    decide
  · rw [List.eq_of_mem_replicate hc]
    decide

theorem lineFeed_ne (depth : Nat) : lineFeed depth ≠ "" := by simp [lineFeed]

theorem parted_space (text : String) : Parted (" " ++ text) :=
  Parted.append_of_ne (by simp [Parted, StartsOutside]; decide) (by decide) text

theorem parted_paren (text : String) : Parted (inParens text) := by
  rw [inParens, String.append_assoc]
  exact .append_of_ne (by simp [Parted, StartsOutside]; decide) (by decide) _

/-- Items with insignificant text between them. -/
theorem prints_many {xs : List γ} {text : γ → String} {P : List TokenKind → β → Prop}
    {shape : γ → β} {strings : γ → List (Nat × StringValue α)} {sep : String}
    (hsep : IsInsignificant sep) (hne : sep ≠ "")
    (h : ∀ x ∈ xs, Prints (text x) P (shape x) (strings x)) :
    Prints (sep.intercalate (xs.map text)) (Many P) (xs.map shape) (xs.flatMap strings) := by
  induction xs with
  | nil => exact ⟨[], by simpa using Emits.empty, .nil, rfl⟩
  | cons x xs ih =>
    obtain ⟨hx, hxs⟩ := List.forall_mem_cons.1 h
    obtain ⟨ts, hts, hform, hraw⟩ := hx
    obtain ⟨us, hus, hforms, hraws⟩ := ih hxs
    refine ⟨ts ++ us, ?_, .cons hform hforms, ?_⟩
    · cases xs with
      | nil =>
        cases hforms
        simpa using hts
      | cons y ys =>
        rw [List.map_cons] at hus
        rw [List.map_cons, List.map_cons, String.intercalate_cons_cons]
        exact (hts.gap hsep hne).append hus
    · rw [rawStrings_append, hraw, hraws, List.flatMap_cons, List.map_append]

/-! ## Names and strings -/

theorem nameForm (n : Name α) : NameForm [nameKind n.value] (n.map forget) :=
  .mk (nameText_nameKind n.value)

theorem withLineFeed_eq (k : Nat) (cs : List Char) :
    withLineFeed ("\n" ++ String.ofList (StringLiteral.spaces k)) cs =
      String.ofList (StringLiteral.indent k cs) := by
  have hfeed : ("\n" ++ String.ofList (StringLiteral.spaces k)).toList =
      '\n' :: StringLiteral.spaces k := by simp
  rw [withLineFeed, hfeed]
  rfl

theorem stringValue_block {s : StringValue α} (hb : s.block = true) (depth : Nat) :
    stringValue depth s =
      String.ofList (StringLiteral.blockLiteral (2 * depth) s.value.toList) := by
  rw [stringValue, if_pos hb, ← StringLiteral.indent_quoteBlock]
  exact withLineFeed_eq (2 * depth) (StringLiteral.quoteBlock s.value.toList)

theorem prints_string (depth : Nat) (s : StringValue α) :
    Prints (stringValue depth s) StringForm (s.rewrite reread depth) [(depth, s)] := by
  refine ⟨[.string (stringValue depth s)], ?_, ?_, rfl⟩
  · by_cases hb : s.block = true
    · rw [stringValue_block hb]
      exact .blockLiteral _ _
    · rw [stringValue, if_neg hb]
      exact .quote _
  · by_cases hb : s.block = true
    · have hdecode : StringLiteral.decode (stringValue depth s).toList = .ok (reread depth
          s.value).toList := by
        rw [stringValue_block hb, String.toList_ofList, StringLiteral.decode_blockLiteral, reread,
          String.toList_ofList]
      have hblock : StringLiteral.isBlock (stringValue depth s).toList = true := by
        rw [stringValue_block hb, String.toList_ofList, StringLiteral.isBlock_blockLiteral]
      have hrewrite : s.rewrite reread depth = ⟨reread depth s.value, true, ()⟩ := by
        rw [StringValue.rewrite, if_pos hb, hb]
      have hform := StringForm.mk hdecode
      rwa [hblock, String.ofList_toList, ← hrewrite] at hform
    · have hdecode : StringLiteral.decode (stringValue depth s).toList = .ok s.value.toList := by
        rw [stringValue, if_neg hb, String.toList_ofList, StringLiteral.decode_quote]
      have hblock : StringLiteral.isBlock (stringValue depth s).toList = false := by
        rw [stringValue, if_neg hb, String.toList_ofList, StringLiteral.isBlock_quote]
      have hrewrite : s.rewrite reread depth = ⟨s.value, false, ()⟩ := by
        rw [StringValue.rewrite, if_neg hb, Bool.eq_false_iff.2 hb]
      have hform := StringForm.mk hdecode
      rwa [hblock, String.ofList_toList, ← hrewrite] at hform

/-! ## Values -/

theorem values_eq (depth : Nat) (vs : List (Value α)) :
    values depth vs = ", ".intercalate (vs.map (value depth)) := by
  induction vs with
  | nil => rw [values, List.map_nil, String.intercalate_nil]
  | cons v vs ih =>
    cases vs with
    | nil => rw [values, List.map_singleton, String.intercalate_singleton]
    | cons w ws =>
      simp only [values, ih, List.map_cons, String.intercalate_cons_cons]

theorem objectFields_eq (depth : Nat) (fs : List (ObjectField α)) :
    objectFields depth fs = ", ".intercalate (fs.map (objectField depth)) := by
  induction fs with
  | nil => rw [objectFields, List.map_nil, String.intercalate_nil]
  | cons f fs ih =>
    cases fs with
    | nil => rw [objectFields, List.map_singleton, String.intercalate_singleton]
    | cons g gs =>
      simp only [objectFields, ih, List.map_cons, String.intercalate_cons_cons]

theorem parted_colon : Parted ": " := by
  simp [Parted, StartsOutside]
  decide

theorem emits_labelled {n : Name α} (hn : n.WellFormed) {text : String} {ts : List TokenKind}
    (h : Emits text ts) :
    Emits (n.value ++ ": " ++ text) ([nameKind n.value] ++ .punctuator .colon :: ts) := by
  have hlabel := ((Emits.name hn).feeds feeds_colon parted_colon (by decide)).append h
  rwa [List.append_assoc] at hlabel

/-- A text between delimiters. -/
theorem emits_enclosed (p q : Punctuator) (hq : q ≠ .ellipsis) {text : String}
    {ts : List TokenKind} (h : Emits text ts) :
    Emits (p.text ++ text ++ q.text) (.punctuator p :: (ts ++ [.punctuator q])) :=
  (((Feeds.punctuator p).append h).close hq).emits

/-- A word that is no name of the input. -/
theorem emits_word {text : String} {kind : TokenKind} (hname : IsName text.toList)
    (hkind : nameKind text = kind) : Emits text [kind] := by
  rw [← hkind]
  exact .name hname

theorem emits_true : Emits "true" [.boolean true] :=
  emits_word (by decide) (by decide)

theorem emits_false : Emits "false" [.boolean false] :=
  emits_word (by decide) (by decide)

theorem emits_null : Emits "null" [.null] :=
  emits_word (by decide) (by decide)

theorem prints_value (constant : Bool) (depth : Nat) {v : Value α} (hv : v.WellFormed)
    (hconst : constant = true → v.isConst = true) :
    Prints (value depth v) (ValueForm constant) (v.rewrite reread depth) (v.strings depth) := by
  induction v using Value.induct with
  | var v =>
    have hc : constant = false := by
      cases constant with
      | false => rfl
      | true => cases hconst rfl
    refine ⟨_, (Feeds.punctuator .dollar).append (.name hv), .var hc (.mk (nameForm v.name)), ?_⟩
    simp [Value.strings]
  | int text i => exact ⟨_, .int hv, .int, rfl⟩
  | float text i => exact ⟨_, .float hv, .float, rfl⟩
  | string s =>
    obtain ⟨ts, hts, hform, hraw⟩ := prints_string depth s
    exact ⟨ts, hts, .string hform, hraw⟩
  | boolean b i =>
    cases b with
    | true => exact ⟨_, emits_true, .boolean, rfl⟩
    | false => exact ⟨_, emits_false, .boolean, rfl⟩
  | null i => exact ⟨_, emits_null, .null, rfl⟩
  | enum text i =>
    refine ⟨[nameKind text], .name hv.1, ?_, by simp [Value.strings]⟩
    rw [nameKind_eq hv.2]
    exact .enum
  | list items i ih =>
    have hitems := Value.allWellFormed_iff.1 hv
    obtain ⟨ts, hts, hform, hraw⟩ := prints_many isInsignificant_comma (by decide) fun v hmem =>
      ih v hmem (hitems v hmem) fun hc => Value.allConst_iff.1 (hconst hc) v hmem
    rw [← values_eq] at hts
    refine ⟨_, emits_enclosed .openBracket .closeBracket (by decide) hts, ?_, ?_⟩
    · rw [Value.rewrite, Value.rewriteAll_eq]
      exact .list hform
    · simp [Value.strings, hraw]
  | object fields i ih =>
    have hfields := ObjectField.allWellFormed_iff.1 hv
    have hprint : ∀ x ∈ fields, Prints (objectField depth x)
        (ObjectFieldForm (ValueForm constant)) (x.rewrite reread depth) (x.strings depth) := by
      intro x hmem
      have hx := hfields x hmem
      have hv := ih x hmem
      have hc := fun hc => ObjectField.allConst_iff.1 (hconst hc) x hmem
      obtain ⟨n, v, j⟩ := x
      have hprint : Prints (value depth v) (ValueForm constant) (v.rewrite reread depth)
          (v.strings depth) := hv hx.2 hc
      obtain ⟨ts, hts, hform, hraw⟩ := hprint
      refine ⟨_, emits_labelled hx.1 hts, .mk (nameForm n) hform, ?_⟩
      simpa [ObjectField.strings] using hraw
    obtain ⟨ts, hts, hform, hraw⟩ := prints_many isInsignificant_comma (by decide) hprint
    rw [← objectFields_eq] at hts
    refine ⟨_, emits_enclosed .openBrace .closeBrace (by decide) hts, ?_, ?_⟩
    · rw [Value.rewrite, ObjectField.rewriteAll_eq]
      exact .object hform
    · simp [Value.strings, hraw]

/-! ## Types -/

theorem nullableType_list (t : TypeRef α) (i : α) :
    nullableType (.list t i) = Punctuator.openBracket.text ++ typeRef t ++
      Punctuator.closeBracket.text := rfl

mutual

theorem emits_typeRef : (t : TypeRef α) → t.WellFormed →
    ∃ ts, Emits (typeRef t) ts ∧ TypeForm ts (t.map forget) ∧ rawStrings ts = []
  | .nullable t, h => by
    obtain ⟨ts, hts, hform, hraw⟩ := emits_nullableType t h
    exact ⟨ts, hts, .nullable hform, hraw⟩
  | .nonNull t _, h => by
    obtain ⟨ts, hts, hform, hraw⟩ := emits_nullableType t h
    refine ⟨_, (hts.close (p := .bang) (by decide)).emits, .nonNull hform, ?_⟩
    simp [hraw]

theorem emits_nullableType : (t : NullableType α) → t.innermost.name.WellFormed →
    ∃ ts, Emits (nullableType t) ts ∧ NullableForm ts (t.map forget) ∧ rawStrings ts = []
  | .named t, h => ⟨_, .name h, .named (.mk (nameForm t.name)), by simp⟩
  | .list t i, h => by
    obtain ⟨ts, hts, hform, hraw⟩ := emits_typeRef t h
    rw [nullableType_list]
    refine ⟨_, emits_enclosed .openBracket .closeBracket (by decide) hts, .list hform, ?_⟩
    simp [hraw]

end

/-! ## Arguments and directives -/

theorem prints_argument (constant : Bool) (depth : Nat) {a : Argument α} (ha : a.WellFormed)
    (hconst : constant = true → a.value.isConst = true) :
    Prints (argument depth a) (ArgumentForm constant) (a.rewrite reread depth)
      (a.strings depth) := by
  obtain ⟨ts, hts, hform, hraw⟩ := prints_value constant depth ha.2 hconst
  refine ⟨_, emits_labelled ha.1 hts, .mk (nameForm a.name) hform, ?_⟩
  simpa [Argument.strings] using hraw

/-- Items in parentheses. -/
theorem prints_inParens {text : String} {P : List TokenKind → β → Prop} {xs : List β}
    {strings : List (Nat × StringValue α)} (hne : xs ≠ []) (h : Prints text (Many P) xs strings) :
    Prints (inParens text) (Listed .openParen .closeParen P) xs strings := by
  obtain ⟨ts, hts, hform, hraw⟩ := h
  refine ⟨_, emits_enclosed .openParen .closeParen (by decide) hts,
    .present (.mk hform hne), ?_⟩
  simpa using hraw

theorem prints_argumentLine (constant : Bool) (depth : Nat) {as : List (Argument α)}
    (has : ∀ a ∈ as, a.WellFormed)
    (hconst : constant = true → ∀ a ∈ as, a.value.isConst = true) :
    Prints (argumentLine depth as) (Many (ArgumentForm constant))
      (as.map (Argument.rewrite reread depth)) (as.flatMap (Argument.strings depth)) :=
  prints_many isInsignificant_comma (by decide) fun a hmem =>
    prints_argument constant depth (has a hmem) fun hc => hconst hc a hmem

theorem prints_argumentLines (depth : Nat) {as : List (Argument α)}
    (has : ∀ a ∈ as, a.WellFormed) :
    Prints (argumentLines depth as) (Many (ArgumentForm false))
      (as.map (Argument.rewrite reread (depth + 1)))
      (as.flatMap (Argument.strings (depth + 1))) := by
  obtain ⟨ts, hts, hform, hraw⟩ := prints_many (isInsignificant_lineFeed (depth + 1))
    (lineFeed_ne (depth + 1)) fun a hmem =>
      prints_argument false (depth + 1) (has a hmem) Bool.false_ne_true.elim
  refine ⟨ts, ?_, hform, hraw⟩
  exact (((Feeds.gap (isInsignificant_lineFeed (depth + 1))).append hts).gap
    (isInsignificant_lineFeed depth) (lineFeed_ne depth)).emits

theorem parted_directive_arguments (depth : Nat) (as : List (Argument α)) :
    Parted (if as.isEmpty then "" else inParens (argumentLine depth as)) := by
  split
  · exact .empty
  · exact parted_paren _

theorem prints_directive (constant : Bool) (depth : Nat) {d : Directive α} (hd : d.WellFormed)
    (hconst : constant = true → d.IsConst) :
    Prints (directive depth d) (DirectiveForm constant) (d.rewrite reread depth)
      (d.strings depth) := by
  have harguments : Prints (if d.arguments.isEmpty then ""
      else inParens (argumentLine depth d.arguments)) (ArgumentsForm constant)
      (d.arguments.map (Argument.rewrite reread depth)) (d.strings depth) := by
    cases has : d.arguments with
    | nil =>
      refine ⟨[], .empty, .absent, ?_⟩
      simp [Directive.strings, has]
    | cons a as =>
      rw [Directive.strings, ← has]
      rw [if_neg (by simp [has])]
      exact prints_inParens (by simp [has]) (prints_argumentLine constant depth hd.2 hconst)
  obtain ⟨ts, hts, hform, hraw⟩ := harguments
  have hname := (Feeds.punctuator .at).append (.name hd.1)
  refine ⟨_, hname.append hts (parted_directive_arguments depth d.arguments),
    .mk (nameForm d.name) hform, ?_⟩
  simpa using hraw

theorem directives_cons (depth : Nat) (d : Directive α) (ds : List (Directive α)) :
    directives depth (d :: ds) = " " ++ directive depth d ++ directives depth ds := by
  simp [directives]

theorem parted_directives (depth : Nat) (ds : List (Directive α)) :
    Parted (directives depth ds) := by
  cases ds with
  | nil => exact .empty
  | cons d ds =>
    rw [directives_cons, String.append_assoc]
    exact parted_space _

theorem prints_directives (constant : Bool) (depth : Nat) {ds : List (Directive α)}
    (hds : ∀ d ∈ ds, d.WellFormed) (hconst : constant = true → ∀ d ∈ ds, d.IsConst) :
    Prints (directives depth ds) (DirectivesForm constant)
      (ds.map (Directive.rewrite reread depth)) (ds.flatMap (Directive.strings depth)) := by
  induction ds with
  | nil => exact ⟨[], .empty, .nil, rfl⟩
  | cons d ds ih =>
    obtain ⟨hd, hds⟩ := List.forall_mem_cons.1 hds
    obtain ⟨ts, hts, hform, hraw⟩ := prints_directive constant depth hd fun hc =>
      hconst hc d List.mem_cons_self
    obtain ⟨us, hus, hforms, hraws⟩ := ih hds fun hc e he =>
      hconst hc e (List.mem_cons_of_mem d he)
    rw [directives_cons]
    refine ⟨ts ++ us, (feeds_space.append hts).append hus (parted_directives depth ds),
      .cons hform hforms, ?_⟩
    rw [rawStrings_append, hraw, hraws, List.flatMap_cons, List.map_append]

/-! ## Selections -/

theorem prints_fieldArguments (depth : Nat) (a : Option (Name α)) (n : Name α)
    {as : List (Argument α)} (has : ∀ x ∈ as, x.WellFormed) :
    Prints (fieldArguments depth (fieldName a n).length as) (ArgumentsForm false)
      (as.map (Argument.rewrite reread (argumentDepth depth a n as)))
      (as.flatMap (Argument.strings (argumentDepth depth a n as))) := by
  unfold fieldArguments
  split
  · rename_i hempty
    rw [List.isEmpty_iff.1 hempty]
    exact ⟨[], .empty, .absent, rfl⟩
  · rename_i hempty
    have hne : as ≠ [] := by simpa using hempty
    simp only [argumentDepth]
    split
    · exact prints_inParens (by simpa using hne) (prints_argumentLines depth has)
    · exact prints_inParens (by simpa using hne)
        (prints_argumentLine false depth has Bool.false_ne_true.elim)

theorem parted_fieldArguments (depth width : Nat) (as : List (Argument α)) :
    Parted (fieldArguments depth width as) := by
  unfold fieldArguments
  split
  · exact .empty
  · simp only
    split <;> exact parted_paren _

theorem emits_fieldName {a : Option (Name α)} {n : Name α} (ha : ∀ m ∈ a, m.WellFormed)
    (hn : n.WellFormed) :
    ∃ us vs, Emits (fieldName a n) (us ++ vs) ∧ Perhaps AliasForm us (a.map (Name.map forget)) ∧
      NameForm vs (n.map forget) ∧ rawStrings (us ++ vs) = [] := by
  cases a with
  | none => exact ⟨[], [nameKind n.value], .name hn, .none, nameForm n, by simp⟩
  | some m =>
    refine ⟨[nameKind m.value] ++ [.punctuator .colon], [nameKind n.value], ?_,
      .some (.mk (nameForm m)), nameForm n, by simp⟩
    have hlabel := (Emits.name (ha m rfl)).feeds feeds_colon parted_colon (by decide)
    exact hlabel.append (.name hn)

/-- A field up to its selections. -/
theorem emits_fieldHead (depth : Nat) {a : Option (Name α)} {n : Name α} {as : List (Argument α)}
    {ds : List (Directive α)} (ha : ∀ m ∈ a, m.WellFormed) (hn : n.WellFormed)
    (has : ∀ x ∈ as, x.WellFormed) (hds : ∀ d ∈ ds, d.WellFormed) :
    ∃ ts us vs ws, Emits (fieldHead depth a n as ds) (ts ++ us ++ vs ++ ws) ∧
      Perhaps AliasForm ts (a.map (Name.map forget)) ∧ NameForm us (n.map forget) ∧
      ArgumentsForm false vs (as.map (Argument.rewrite reread (argumentDepth depth a n as))) ∧
      DirectivesForm false ws (ds.map (Directive.rewrite reread depth)) ∧
      rawStrings (ts ++ us ++ vs ++ ws) =
        (as.flatMap (Argument.strings (argumentDepth depth a n as)) ++
          ds.flatMap (Directive.strings depth)).map literal := by
  obtain ⟨ts, us, hname, haform, hnform, hraw⟩ := emits_fieldName ha hn
  obtain ⟨vs, hvs, hvform, hvraw⟩ := prints_fieldArguments depth a n has
  obtain ⟨ws, hws, hwform, hwraw⟩ := prints_directives false depth hds Bool.false_ne_true.elim
  refine ⟨ts, us, vs, ws, (hname.append hvs (parted_fieldArguments depth _ as)).append hws
    (parted_directives depth ds), haform, hnform, hvform, hwform, ?_⟩
  rw [rawStrings_append, rawStrings_append (ts ++ us), hraw, hvraw, hwraw, List.map_append,
    List.nil_append]

theorem selections_cons (depth : Nat) (s : Selection α) (ss : List (Selection α)) :
    selections depth (s :: ss) =
      lineFeed depth ++ selection depth s ++ selections depth ss := rfl

theorem selectionSet_mk (depth : Nat) {items : List (Selection α)} (hne : items ≠ []) (i : α) :
    selectionSet depth (.mk items i) = Punctuator.openBrace.text ++ selections (depth + 1) items ++
      lineFeed depth ++ Punctuator.closeBrace.text := by
  cases items with
  | nil => exact absurd rfl hne
  | cons s ss => rfl

theorem afterSpace_of_ne {text : String} (h : text ≠ "") : afterSpace text = " " ++ text := by
  rw [afterSpace, if_neg (by simpa using h)]

/-- Selections stand behind a space, since there is one at least. -/
theorem afterSpace_selectionSet (depth : Nat) {set : SelectionSet α} (hset : set.WellFormed) :
    afterSpace (selectionSet depth set) = " " ++ selectionSet depth set := by
  obtain ⟨items, i⟩ := set
  have hne : selectionSet depth (.mk items i) ≠ "" := by
    rw [selectionSet_mk depth hset.1]
    simp [Punctuator.text]
  exact afterSpace_of_ne hne

theorem emits_on : Emits "on" [.name "on"] :=
  emits_word (by decide) (by decide)

theorem feeds_on : Feeds " on " [.name "on"] := by
  have htext : " on " = " " ++ "on" ++ " " := rfl
  rw [htext]
  exact (feeds_space.append emits_on).gap isInsignificant_space (by decide)

/-- A fragment in place, up to its selections. -/
theorem emits_inlineHead (depth : Nat) {t : Option (NamedType α)} {ds : List (Directive α)}
    (ht : ∀ x ∈ t, x.name.WellFormed) (hds : ∀ d ∈ ds, d.WellFormed) :
    ∃ ts us, Emits (inlineHead depth t ds) (.punctuator .ellipsis :: (ts ++ us)) ∧
      Perhaps TypeConditionForm ts (t.map (NamedType.map forget)) ∧
      DirectivesForm false us (ds.map (Directive.rewrite reread depth)) ∧
      rawStrings (ts ++ us) = (ds.flatMap (Directive.strings depth)).map literal := by
  obtain ⟨us, hus, huform, huraw⟩ := prints_directives false depth hds Bool.false_ne_true.elim
  have hseam := parted_directives depth ds
  cases t with
  | none =>
    exact ⟨[], us, ((Feeds.punctuator .ellipsis).append .empty).append hus hseam, .none, huform,
      huraw⟩
  | some t =>
    refine ⟨.name "on" :: [nameKind t.name.value], us, ?_, .some (.mk (.mk (nameForm t.name))),
      huform, ?_⟩
    · exact ((Feeds.punctuator .ellipsis).append (feeds_on.append (.name (ht t rfl)))).append hus
        hseam
    · have hword : rawStrings (.name "on" :: [nameKind t.name.value]) = [] :=
        rawStrings_name t.name.value []
      rw [rawStrings_append, hword, huraw, List.nil_append]

/-- What is printed for a selection set. -/
def PrintsSet (depth : Nat) (set : SelectionSet α) : Prop :=
  Prints (selectionSet depth set) SelectionSetForm (set.rewrite reread depth) (set.strings depth)

theorem prints_selection (depth : Nat) {s : Selection α} (hs : s.WellFormed)
    (hinner : ∀ set ∈ s.inner?, set.WellFormed → PrintsSet depth set) :
    Prints (selection depth s) (SelectionForm SelectionSetForm) (s.rewrite reread depth)
      (s.strings depth) := by
  cases s with
  | field a n as ds set i =>
    obtain ⟨ha, hn, has, hds, hset⟩ := Selection.wellFormed_field.1 hs
    obtain ⟨ts, us, vs, ws, hhead, haform, hnform, hvform, hwform, hraw⟩ :=
      emits_fieldHead depth ha hn has hds
    cases set with
    | none =>
      refine ⟨_, hhead, ?_, hraw⟩
      have hform := SelectionForm.field haform hnform hvform hwform
        (S := SelectionSetForm) .none
      simpa [Selection.rewrite] using hform
    | some set =>
      obtain ⟨xs, hxs, hform, hsraw⟩ := hinner set rfl (hset set rfl)
      have htext : selection depth (.field a n as ds (some set) i) =
          fieldHead depth a n as ds ++ (" " ++ selectionSet depth set) := by
        rw [selection, afterSpace_selectionSet depth (hset set rfl)]
      refine ⟨ts ++ us ++ vs ++ ws ++ xs, ?_, ?_, ?_⟩
      · rw [htext]
        exact hhead.append (feeds_space.append hxs) (parted_space _)
      · have hfield := SelectionForm.field haform hnform hvform hwform (.some hform)
        simpa [Selection.rewrite] using hfield
      · rw [rawStrings_append, hraw, hsraw, Selection.strings, ← List.map_append]
  | spread s =>
    obtain ⟨hn, hon, hds⟩ := hs
    obtain ⟨ws, hws, hwform, hwraw⟩ := prints_directives false depth hds Bool.false_ne_true.elim
    refine ⟨_, ((Feeds.punctuator .ellipsis).append (.name hn)).append hws
      (parted_directives depth s.directives), .spread (nameForm s.name) hon hwform, ?_⟩
    simpa [Selection.strings] using hwraw
  | inlineFragment t ds set i =>
    obtain ⟨ht, hds, hset⟩ := hs
    obtain ⟨ts, us, hhead, htform, huform, hraw⟩ := emits_inlineHead depth ht hds
    obtain ⟨xs, hxs, hform, hsraw⟩ := hinner set rfl hset
    have htext : selection depth (.inlineFragment t ds set i) =
        inlineHead depth t ds ++ (" " ++ selectionSet depth set) := by
      rw [selection, afterSpace_selectionSet depth hset]
    refine ⟨.punctuator .ellipsis :: (ts ++ (us ++ xs)), ?_, ?_, ?_⟩
    · rw [htext, ← List.append_assoc, ← List.cons_append]
      exact hhead.append (feeds_space.append hxs) (parted_space _)
    · exact .inlineFragment htform huform hform
    · rw [← List.append_assoc, rawStrings_punctuator, rawStrings_append, hraw, hsraw,
        Selection.strings, List.map_append]

theorem parted_selections (depth : Nat) (ss : List (Selection α)) :
    Parted (selections depth ss) := by
  cases ss with
  | nil => exact .empty
  | cons s ss =>
    rw [selections_cons, String.append_assoc]
    exact (isInsignificant_lineFeed depth).parted.append_of_ne (lineFeed_ne depth) _

theorem prints_selections (depth : Nat) {ss : List (Selection α)}
    (h : ∀ s ∈ ss, Prints (selection depth s) (SelectionForm SelectionSetForm)
      (s.rewrite reread depth) (s.strings depth)) :
    Prints (selections depth ss) (Many (SelectionForm SelectionSetForm))
      (ss.map (Selection.rewrite reread depth)) (ss.flatMap (Selection.strings depth)) := by
  induction ss with
  | nil => exact ⟨[], .empty, .nil, rfl⟩
  | cons s ss ih =>
    obtain ⟨⟨ts, hts, hform, hraw⟩, hss⟩ := List.forall_mem_cons.1 h
    obtain ⟨us, hus, hforms, hraws⟩ := ih hss
    rw [selections_cons]
    refine ⟨ts ++ us, ((Feeds.gap (isInsignificant_lineFeed depth)).append hts).append hus
      (parted_selections depth ss), .cons hform hforms, ?_⟩
    rw [rawStrings_append, hraw, hraws, List.flatMap_cons, List.map_append]

theorem prints_selectionSet (depth : Nat) {set : SelectionSet α} (hset : set.WellFormed) :
    PrintsSet depth set := by
  induction set using SelectionSet.induct generalizing depth with
  | mk items i ih =>
    obtain ⟨hne, hitems⟩ := hset
    obtain ⟨ts, hts, hform, hraw⟩ := prints_selections (depth + 1) fun s hs =>
      prints_selection (depth + 1) (Selection.allWellFormed_iff.1 hitems s hs)
        fun set hmem hwf => ih s hs set hmem (depth + 1) hwf
    have hlines := ((Feeds.punctuator .openBrace).append hts).gap
      (isInsignificant_lineFeed depth) (lineFeed_ne depth)
    have hwhole := (hlines.feeds (.punctuator .closeBrace)).emits
    refine ⟨.punctuator .openBrace :: (ts ++ [.punctuator .closeBrace]), ?_, ?_, ?_⟩
    · rw [selectionSet_mk depth hne]
      exact hwhole
    · rw [SelectionSet.rewrite, Selection.rewriteAll_eq]
      exact .mk (.mk hform (by simpa using hne))
    · simp [SelectionSet.strings, hraw]

/-! ## Definitions -/

/-- A text after its description. -/
theorem emits_described (d : Option (StringValue α)) {sep text : String} {ks : List TokenKind}
    (hsep : IsInsignificant sep) (hne : sep ≠ "") (h : Emits text ks) :
    ∃ ts, Emits (described d sep text) (ts ++ ks) ∧
      Perhaps StringForm ts (d.map (StringValue.rewrite reread 0)) ∧
      rawStrings ts = (descriptionStrings d).map literal := by
  cases d with
  | none => exact ⟨[], h, .none, rfl⟩
  | some s =>
    obtain ⟨ts, hts, hform, hraw⟩ := prints_string 0 s
    exact ⟨ts, (hts.gap hsep hne).append h, .some hform, hraw⟩

theorem feeds_equals : Feeds " = " [.punctuator .equals] := by
  have htext : " = " = " " ++ Punctuator.equals.text ++ " " := rfl
  rw [htext]
  exact (feeds_space.feeds (.punctuator .equals)).feeds feeds_space

/-- The text of a default value. -/
def defaultText (d : Option (Value α)) : String :=
  match d with
  | some v => " = " ++ value 0 v
  | none => ""

theorem parted_defaultText (d : Option (Value α)) : Parted (defaultText d) := by
  cases d with
  | none => exact .empty
  | some v => exact .append_of_ne (by simp [Parted, StartsOutside]; decide) (by decide) _

theorem prints_defaultText {d : Option (Value α)}
    (hd : ∀ v ∈ d, v.WellFormed ∧ v.isConst = true) :
    Prints (defaultText d) (Perhaps DefaultForm) (d.map (Value.rewrite reread 0))
      (d.toList.flatMap (Value.strings 0)) := by
  cases d with
  | none => exact ⟨[], .empty, .none, rfl⟩
  | some v =>
    obtain ⟨ts, hts, hform, hraw⟩ := prints_value true 0 (hd v rfl).1 fun _ => (hd v rfl).2
    refine ⟨_, feeds_equals.append hts, .some (.mk hform), ?_⟩
    simpa using hraw

theorem variableDefinition_eq (v : VariableDefinition α) :
    variableDefinition v = described v.description " "
      (varRef v.var ++ ": " ++ typeRef v.type ++ defaultText v.default ++
        directives 0 v.directives) := by
  obtain ⟨_, _, _, default, _, _⟩ := v
  cases default <;> rfl

theorem prints_variableDefinition {v : VariableDefinition α} (hv : v.WellFormed) :
    Prints (variableDefinition v) VariableDefinitionForm (v.rewrite reread) v.strings := by
  obtain ⟨vs, hvs, htform, htraw⟩ := emits_typeRef v.type hv.type
  obtain ⟨ws, hws, hdform, hdraw⟩ := prints_defaultText hv.default
  obtain ⟨xs, hxs, hxform, hxraw⟩ := prints_directives true 0
    (fun d hd => (hv.directives d hd).1) fun _ d hd => (hv.directives d hd).2
  have hvar : Emits (varRef v.var) (.punctuator .dollar :: [nameKind v.var.name.value]) :=
    (Feeds.punctuator .dollar).append (.name hv.var)
  have hbody := (((hvar.feeds feeds_colon parted_colon (by decide)).append hvs).append hws
    (parted_defaultText v.default)).append hxs (parted_directives 0 v.directives)
  obtain ⟨ts, hts, hform, hraw⟩ := emits_described v.description isInsignificant_space
    (by decide) hbody
  rw [variableDefinition_eq]
  refine ⟨_, hts, ?_, ?_⟩
  · have hdef := VariableDefinitionForm.mk hform (.mk (nameForm v.var.name)) htform hdform hxform
    simpa [VariableDefinition.rewrite, Variable.map] using hdef
  · simp [VariableDefinition.strings, hraw, hdraw, hxraw, htraw]

theorem prints_variableDefinitions {vs : List (VariableDefinition α)}
    (hvs : ∀ v ∈ vs, v.WellFormed) :
    Prints (variableDefinitions vs) (Listed .openParen .closeParen VariableDefinitionForm)
      (vs.map (VariableDefinition.rewrite reread)) (vs.flatMap VariableDefinition.strings) := by
  unfold variableDefinitions
  split
  · rename_i hempty
    rw [List.isEmpty_iff.1 hempty]
    exact ⟨[], .empty, .absent, rfl⟩
  · rename_i hempty
    exact prints_inParens (by simpa using hempty) (prints_many isInsignificant_comma (by decide)
      fun v hv => prints_variableDefinition (hvs v hv))

theorem parted_variableDefinitions (vs : List (VariableDefinition α)) :
    Parted (variableDefinitions vs) := by
  unfold variableDefinitions
  split
  · exact .empty
  · exact parted_paren _

theorem emits_keyword (kind : OperationKind) : Emits kind.keyword [.name kind.keyword] := by
  cases kind with
  | query => exact emits_word (by decide) (by decide)
  | mutation => exact emits_word (by decide) (by decide)
  | subscription => exact emits_word (by decide) (by decide)

theorem emits_fragment : Emits "fragment" [.name "fragment"] :=
  emits_word (by decide) (by decide)

theorem feeds_fragment : Feeds "fragment " [.name "fragment"] := by
  have htext : "fragment " = "fragment" ++ " " := rfl
  rw [htext]
  exact emits_fragment.gap isInsignificant_space (by decide)

/-- The text of the name of an operation, with a space before it or before the
variables. -/
def operationNameText (o : Operation α) : String :=
  match o.name with
  | some name => " " ++ name.value
  | none => if o.variableDefinitions.isEmpty then "" else " "

theorem emits_operationNameText {o : Operation α} (ho : ∀ n ∈ o.name, n.WellFormed) :
    ∃ ts, Emits (operationNameText o) ts ∧ Perhaps NameForm ts (o.name.map (Name.map forget)) ∧
      rawStrings ts = [] := by
  unfold operationNameText
  cases hname : o.name with
  | none =>
    refine ⟨[], ?_, .none, rfl⟩
    simp only
    split
    · exact .empty
    · exact feeds_space.emits
  | some n => exact ⟨_, feeds_space.append (.name (ho n hname)), .some (nameForm n), by simp⟩

theorem parted_operationNameText (o : Operation α) : Parted (operationNameText o) := by
  unfold operationNameText
  split
  · exact parted_space _
  · split
    · exact .empty
    · exact isInsignificant_space.parted

theorem operationHead_eq (o : Operation α) :
    operationHead o = o.kind.keyword ++ operationNameText o ++
      variableDefinitions o.variableDefinitions ++ directives 0 o.directives := by
  obtain ⟨_, _, name, _, _, _, _⟩ := o
  cases name <;> rfl

theorem isInsignificant_newline : IsInsignificant "\n" := by
  simp [IsInsignificant]
  decide

/-- An operation that is printed with its keyword. -/
theorem prints_fullOperation {o : Operation α} (ho : o.WellFormed) (hshort : isShort o = false) :
    Prints (operation o) OperationForm (o.rewrite reread) o.strings := by
  obtain ⟨us, hus, huform, huraw⟩ := emits_operationNameText ho.name
  obtain ⟨vs, hvs, hvform, hvraw⟩ := prints_variableDefinitions ho.variableDefinitions
  obtain ⟨ws, hws, hwform, hwraw⟩ := prints_directives false 0 ho.directives Bool.false_ne_true.elim
  obtain ⟨xs, hxs, hxform, hxraw⟩ := prints_selectionSet 0 ho.selections
  have hhead := (((emits_keyword o.kind).append hus (parted_operationNameText o)).append hvs
    (parted_variableDefinitions o.variableDefinitions)).append hws
    (parted_directives 0 o.directives)
  have hbody := hhead.append (feeds_space.append hxs) (parted_space _)
  obtain ⟨ts, hts, hform, hraw⟩ := emits_described o.description isInsignificant_newline
    (by decide) hbody
  have htext : operation o = described o.description "\n"
      (o.kind.keyword ++ operationNameText o ++ variableDefinitions o.variableDefinitions ++
        directives 0 o.directives ++ (" " ++ selectionSet 0 o.selections)) := by
    rw [operation, hshort, if_neg (by decide), operationHead_eq,
      afterSpace_selectionSet 0 ho.selections]
  rw [htext]
  refine ⟨_, hts, ?_, ?_⟩
  · have hfull := @OperationForm.full _ _ _ _ _ _ o.kind _ _ _ _ hform huform hvform hwform hxform
    simpa [Operation.rewrite] using hfull
  · have hword : rawStrings [.name o.kind.keyword] = [] := rfl
    simp only [rawStrings_append, hraw, hword, huraw, hvraw, hwraw, hxraw, Operation.strings,
      List.map_append, List.nil_append, List.append_assoc]

theorem prints_operation {o : Operation α} (ho : o.WellFormed) :
    Prints (operation o) OperationForm (o.rewrite reread) o.strings := by
  by_cases hshort : isShort o = true
  · obtain ⟨xs, hxs, hxform, hxraw⟩ := prints_selectionSet 0 ho.selections
    have htext : operation o = selectionSet 0 o.selections := by rw [operation, if_pos hshort]
    rw [htext]
    obtain ⟨description, kind, name, definitions, ds, set, i⟩ := o
    simp only [isShort, Bool.and_eq_true, beq_iff_eq, Option.isNone_iff_eq_none,
      List.isEmpty_iff] at hshort
    obtain ⟨⟨⟨⟨rfl, rfl⟩, rfl⟩, rfl⟩, rfl⟩ := hshort
    exact ⟨xs, hxs, .short hxform, by simpa [Operation.strings, descriptionStrings] using hxraw⟩
  · exact prints_fullOperation ho (by simpa using hshort)

theorem prints_fragment {x : Fragment α} (hx : x.WellFormed) :
    Prints (fragment x) FragmentForm (x.rewrite reread) x.strings := by
  obtain ⟨ws, hws, hwform, hwraw⟩ := prints_directives false 0 hx.directives Bool.false_ne_true.elim
  obtain ⟨xs, hxs, hxform, hxraw⟩ := prints_selectionSet 0 hx.selections
  have hname := (feeds_fragment.append (.name hx.name)).feeds feeds_on
    (parted_space "on ") (by decide)
  have hhead := (hname.append (.name hx.typeCondition)).append hws (parted_directives 0 x.directives)
  have hbody := hhead.append (feeds_space.append hxs) (parted_space _)
  obtain ⟨ts, hts, hform, hraw⟩ := emits_described x.description isInsignificant_newline
    (by decide) hbody
  have htext : fragment x = described x.description "\n"
      ("fragment " ++ x.name.value ++ " on " ++ x.typeCondition.name.value ++
        directives 0 x.directives ++ (" " ++ selectionSet 0 x.selections)) := by
    rw [fragment, afterSpace_selectionSet 0 hx.selections]
  rw [htext]
  refine ⟨_, hts, ?_, ?_⟩
  · have hfragment := FragmentForm.mk hform (nameForm x.name) hx.notOn
      (.mk (.mk (nameForm x.typeCondition.name))) hwform hxform
    simpa [Fragment.rewrite, NamedType.map] using hfragment
  · have hword : rawStrings [.name "fragment"] = [] := rfl
    have hon : rawStrings [.name "on"] = [] := rfl
    have hname : rawStrings [nameKind x.name.value] = [] := rawStrings_name _ []
    have htype : rawStrings [nameKind x.typeCondition.name.value] = [] := rawStrings_name _ []
    simp only [rawStrings_append, hraw, hword, hon, hname, htype, hwraw, hxraw, Fragment.strings,
      List.map_append, List.nil_append, List.append_nil]

theorem prints_definition {d : Definition α} (hd : d.WellFormed) :
    Prints (definition d) DefinitionForm (d.rewrite reread) d.strings := by
  cases d with
  | operation o =>
    obtain ⟨ts, hts, hform, hraw⟩ := prints_operation hd
    exact ⟨ts, hts, .operation hform, hraw⟩
  | fragment x =>
    obtain ⟨ts, hts, hform, hraw⟩ := prints_fragment hd
    exact ⟨ts, hts, .fragment hform, hraw⟩

/-- What is printed for a document. -/
theorem prints_document {d : Document α} (hd : d.WellFormed) :
    Prints (document d) DocumentForm (d.rewrite reread) d.strings := by
  have hgap : IsInsignificant "\n\n" := by
    simp [IsInsignificant]
    decide
  obtain ⟨ts, hts, hform, hraw⟩ := prints_many hgap (by decide) fun x hx =>
    prints_definition (hd.definitions x hx)
  exact ⟨ts, hts, .mk hform (by simpa using hd.nonempty), hraw⟩

end Printer

end QueryDoc
