import QueryDoc.Proofs.Print.RoundTrip

/-!
# Depth only indents

A text that is printed at a depth is the one that is printed at the margin, with
every line but the first moved to that depth. Texts put together from such texts
are such texts, so the property is carried along the printer production by
production. Names and numbers have to stay on their line for it.

Whether the arguments of a field stand on its line is decided by how wide they
are. A block string takes more room the deeper it lies, so with one among them
the decision depends on the depth. Without one they have a single line, and its
width is the same everywhere.
-/
namespace QueryDoc

variable {α γ : Type} {s t : String} {depth : Nat}

/-- The text with all lines but the first moved to a depth. -/
def indented (depth : Nat) (text : String) : String :=
  Printer.withLineFeed (lineFeed depth) text.toList

/-- The text is a single line. -/
def Unbroken (text : String) : Prop := '\n' ∉ text.toList

instance (text : String) : Decidable (Unbroken text) := inferInstanceAs (Decidable (_ ∉ _))

/-! ## Single lines -/

theorem Unbroken.append (hs : Unbroken s) (ht : Unbroken t) : Unbroken (s ++ t) := by
  simp only [Unbroken, String.toList_append, List.mem_append, not_or]
  exact ⟨hs, ht⟩

theorem Unbroken.intercalate {sep : String} {ts : List String} (hsep : Unbroken sep)
    (h : ∀ t ∈ ts, Unbroken t) : Unbroken (sep.intercalate ts) := by
  induction ts with
  | nil => exact String.intercalate_nil ▸ List.not_mem_nil
  | cons t ts ih =>
    obtain ⟨ht, hts⟩ := List.forall_mem_cons.1 h
    cases ts with
    | nil =>
      rw [String.intercalate_singleton]
      exact ht
    | cons u us =>
      rw [String.intercalate_cons_cons]
      exact (ht.append hsep).append (ih hts)

theorem unbroken_quote (cs : List Char) : Unbroken (String.ofList (StringLiteral.quote cs)) := by
  have hunit : ∀ c ∈ cs, '\n' ∉ StringLiteral.escapeChar c :=
    fun c _ hfeed => nomatch StringLiteral.isLineEnd_of_mem_escapeChar hfeed
  rw [Unbroken, String.toList_ofList, StringLiteral.quote]
  simpa using hunit

/-! ## Moving a text -/

theorem indented_eq (depth : Nat) (t : String) :
    indented depth t = String.ofList (StringLiteral.indent (2 * depth) t.toList) :=
  Printer.withLineFeed_eq (2 * depth) t.toList

theorem indented_append (depth : Nat) (s t : String) :
    indented depth (s ++ t) = indented depth s ++ indented depth t := by
  simp only [indented_eq, String.toList_append, StringLiteral.indent_append, String.ofList_append]

theorem Unbroken.indented (h : Unbroken t) (depth : Nat) : indented depth t = t := by
  rw [indented_eq, StringLiteral.indent_of_notMem _ h, String.ofList_toList]

theorem indented_indented (depth k : Nat) (t : String) :
    indented depth (indented k t) = indented (depth + k) t := by
  rw [indented_eq, indented_eq, indented_eq, String.toList_ofList, StringLiteral.indent_indent,
    Nat.mul_add]

theorem indented_zero (t : String) : indented 0 t = t := by
  rw [indented_eq, Nat.mul_zero, StringLiteral.indent_zero, String.ofList_toList]

theorem indented_eq_empty : indented depth t = "" ↔ t = "" := by
  constructor
  · intro h
    rw [indented_eq, ← String.toList_inj, String.toList_ofList] at h
    have hnil : StringLiteral.indent (2 * depth) t.toList = StringLiteral.indent (2 * depth) [] := h
    exact String.toList_inj.1 (StringLiteral.indent_inj hnil)
  · rintro rfl
    rfl

/-- The text at a depth is the one at the margin, moved there. -/
def Shifts (text : Nat → String) : Prop := ∀ depth, text depth = indented depth (text 0)

namespace Shifts

variable {u v : Nat → String}

theorem single (h : Unbroken t) : Shifts fun _ => t := fun depth => (h.indented depth).symm

/-- A text that is moved to each depth. -/
theorem moved (t : String) : Shifts fun depth => indented depth t := fun depth =>
  congrArg (indented depth) (indented_zero t).symm

theorem append (hu : Shifts u) (hv : Shifts v) : Shifts fun depth => u depth ++ v depth := by
  intro depth
  calc u depth ++ v depth = indented depth (u 0) ++ indented depth (v 0) := by
        rw [hu depth, hv depth]
    _ = indented depth (u 0 ++ v 0) := (indented_append depth (u 0) (v 0)).symm

/-- A text whose lines lie deeper than where it stands. -/
theorem deeper (hu : Shifts u) : Shifts fun depth => u (depth + 1) := by
  intro depth
  calc u (depth + 1) = indented (depth + 1) (u 0) := hu (depth + 1)
    _ = indented depth (indented 1 (u 0)) := (indented_indented depth 1 (u 0)).symm
    _ = indented depth (u (0 + 1)) := by rw [hu (0 + 1)]

theorem lineFeed : Shifts lineFeed := by
  intro depth
  have hone : indented depth "\n" = QueryDoc.lineFeed depth := by
    simp [indented, Printer.withLineFeed]
  have hzero : QueryDoc.lineFeed 0 = "\n" := rfl
  rw [hzero, hone]

theorem intercalate {xs : List γ} {text : Nat → γ → String} (hu : Shifts u)
    (h : ∀ x ∈ xs, Shifts fun depth => text depth x) :
    Shifts fun depth => (u depth).intercalate (xs.map (text depth)) := by
  induction xs with
  | nil => exact .single (by simp [Unbroken])
  | cons x xs ih =>
    obtain ⟨hx, hxs⟩ := List.forall_mem_cons.1 h
    cases xs with
    | nil => simpa using hx
    | cons y ys =>
      simpa [String.intercalate_cons_cons] using (hx.append hu).append (ih hxs)

/-- A text on a single line is the same at each depth. -/
theorem eq_zero (hu : Shifts u) (h : Unbroken (u 0)) (depth : Nat) : u depth = u 0 :=
  (hu depth).trans (h.indented depth)

theorem afterSpace (hu : Shifts u) : Shifts fun depth => Printer.afterSpace (u depth) := by
  intro depth
  by_cases h : u 0 = ""
  · have hempty : u depth = "" := by rw [hu depth, indented_eq_empty, h]
    simp only [h, hempty]
    rfl
  · have hne : u depth ≠ "" := by
      rw [hu depth]
      exact mt indented_eq_empty.1 h
    have hspace : Unbroken " " := by decide
    calc Printer.afterSpace (u depth) = " " ++ indented depth (u 0) := by
          rw [Printer.afterSpace_of_ne hne, hu depth]
      _ = indented depth (Printer.afterSpace (u 0)) := by
          rw [Printer.afterSpace_of_ne h, indented_append, hspace.indented]

end Shifts

/-! ## Names and numbers -/

section Texts

mutual

/-- The names and the numbers in a value. -/
def Value.texts : Value α → List String
  | .variable v => [v.name.value]
  | .int text _ => [text]
  | .float text _ => [text]
  | .enum name _ => [name]
  | .list items _ => Value.allTexts items
  | .object fields _ => ObjectField.allTexts fields
  | _ => []

def Value.allTexts : List (Value α) → List String
  | [] => []
  | v :: vs => v.texts ++ Value.allTexts vs

def ObjectField.texts : ObjectField α → List String
  | .mk name v _ => name.value :: v.texts

def ObjectField.allTexts : List (ObjectField α) → List String
  | [] => []
  | x :: xs => x.texts ++ ObjectField.allTexts xs

end

def Argument.texts (a : Argument α) : List String := a.name.value :: a.value.texts

def Directive.texts (d : Directive α) : List String :=
  d.name.value :: d.arguments.flatMap Argument.texts

mutual

def Selection.texts : Selection α → List String
  | .field a n as ds none _ =>
    (a.toList ++ [n]).map Name.value ++ as.flatMap Argument.texts ++ ds.flatMap Directive.texts
  | .field a n as ds (some set) _ =>
    (a.toList ++ [n]).map Name.value ++ as.flatMap Argument.texts ++ ds.flatMap Directive.texts ++
      set.texts
  | .spread s => s.name.value :: s.directives.flatMap Directive.texts
  | .inlineFragment t ds set _ =>
    t.toList.map (fun t => t.name.value) ++ ds.flatMap Directive.texts ++ set.texts

def Selection.allTexts : List (Selection α) → List String
  | [] => []
  | s :: ss => s.texts ++ Selection.allTexts ss

def SelectionSet.texts : SelectionSet α → List String
  | .mk items _ => Selection.allTexts items

end

mutual

/-- The arguments of all fields in a selection. -/
def Selection.fieldArguments : Selection α → List (Argument α)
  | .field _ _ as _ none _ => as
  | .field _ _ as _ (some set) _ => as ++ set.fieldArguments
  | .spread _ => []
  | .inlineFragment _ _ set _ => set.fieldArguments

def Selection.allFieldArguments : List (Selection α) → List (Argument α)
  | [] => []
  | s :: ss => s.fieldArguments ++ Selection.allFieldArguments ss

def SelectionSet.fieldArguments : SelectionSet α → List (Argument α)
  | .mk items _ => Selection.allFieldArguments items

end

theorem Value.allTexts_eq (vs : List (Value α)) : Value.allTexts vs = vs.flatMap Value.texts := by
  induction vs with
  | nil => rfl
  | cons v vs ih => rw [Value.allTexts, ih, List.flatMap_cons]

theorem ObjectField.allTexts_eq (fs : List (ObjectField α)) :
    ObjectField.allTexts fs = fs.flatMap ObjectField.texts := by
  induction fs with
  | nil => rfl
  | cons x fs ih => rw [ObjectField.allTexts, ih, List.flatMap_cons]

theorem Selection.allTexts_eq (ss : List (Selection α)) :
    Selection.allTexts ss = ss.flatMap Selection.texts := by
  induction ss with
  | nil => rfl
  | cons s ss ih => rw [Selection.allTexts, ih, List.flatMap_cons]

theorem Selection.allFieldArguments_eq (ss : List (Selection α)) :
    Selection.allFieldArguments ss = ss.flatMap Selection.fieldArguments := by
  induction ss with
  | nil => rfl
  | cons s ss ih => rw [Selection.allFieldArguments, ih, List.flatMap_cons]

end Texts

namespace Printer

/-! ## Values -/

theorem shifts_stringValue (s : StringValue α) : Shifts fun depth => stringValue depth s := by
  by_cases hb : s.block = true
  · have hmoved := Shifts.moved (String.ofList (StringLiteral.quoteBlock s.value.toList))
    simpa only [indented, String.toList_ofList, stringValue, if_pos hb] using hmoved
  · simpa only [stringValue, if_neg hb] using Shifts.single (unbroken_quote s.value.toList)

/-- A label and what stands behind it. -/
theorem shifts_labelled {label : String} {u : Nat → String} (h : Unbroken label) (hu : Shifts u) :
    Shifts fun depth => label ++ ": " ++ u depth :=
  .append (.single (h.append (by decide))) hu

theorem shifts_value {v : Value α} (h : ∀ t ∈ v.texts, Unbroken t) :
    Shifts fun depth => value depth v := by
  induction v using Value.induct with
  | var v => exact .single (.append (by decide) (h _ (.head _)))
  | int text i => exact .single (h _ (.head _))
  | float text i => exact .single (h _ (.head _))
  | string s => exact shifts_stringValue s
  | boolean b i => cases b <;> exact .single (by decide)
  | null i => exact .single (by decide)
  | enum name i => exact .single (h _ (.head _))
  | list items i ih =>
    rw [Value.texts, Value.allTexts_eq, List.forall_mem_flatMap] at h
    have hitems := Shifts.intercalate (u := fun _ => ", ") (.single (by decide)) fun v hv =>
      ih v hv (h v hv)
    simpa only [value, values_eq] using
      (Shifts.append (.single (by decide)) hitems).append (.single (by decide))
  | object fields i ih =>
    rw [Value.texts, ObjectField.allTexts_eq, List.forall_mem_flatMap] at h
    have hfield : ∀ x ∈ fields, Shifts fun depth => objectField depth x := by
      intro x hx
      have hv := ih x hx
      have htexts := h x hx
      obtain ⟨n, v, j⟩ := x
      obtain ⟨hn, htexts⟩ := List.forall_mem_cons.1 htexts
      exact shifts_labelled hn (hv htexts)
    have hfields := Shifts.intercalate (u := fun _ => ", ") (.single (by decide)) hfield
    simpa only [value, objectFields_eq] using
      (Shifts.append (.single (by decide)) hfields).append (.single (by decide))

/-- A value without a block string is printed on one line. -/
theorem unbroken_value {v : Value α} (h : ∀ t ∈ v.texts, Unbroken t) (hb : NoBlock (v.strings 0)) :
    Unbroken (value 0 v) := by
  induction v using Value.induct with
  | var v => exact .append (by decide) (h _ (.head _))
  | int text i => exact h _ (.head _)
  | float text i => exact h _ (.head _)
  | string s =>
    have hs : s.block = false := hb _ (.head _)
    rw [value, stringValue, hs]
    exact unbroken_quote s.value.toList
  | boolean b i =>
    have hboth : ∀ b, Unbroken (boolean b) := by decide
    exact hboth b
  | null i => exact show Unbroken "null" by decide
  | enum name i => exact h _ (.head _)
  | list items i ih =>
    rw [Value.texts, Value.allTexts_eq, List.forall_mem_flatMap] at h
    rw [NoBlock, Value.strings, Value.allStrings_eq, List.forall_mem_flatMap] at hb
    have hitems : ∀ t ∈ items.map (value 0), Unbroken t :=
      List.forall_mem_map.2 fun v hv => ih v hv (h v hv) (hb v hv)
    rw [value, values_eq]
    exact (Unbroken.append (by decide) (.intercalate (by decide) hitems)).append (by decide)
  | object fields i ih =>
    rw [Value.texts, ObjectField.allTexts_eq, List.forall_mem_flatMap] at h
    rw [NoBlock, Value.strings, ObjectField.allStrings_eq, List.forall_mem_flatMap] at hb
    have hfields : ∀ t ∈ fields.map (objectField 0), Unbroken t := by
      refine List.forall_mem_map.2 fun x hx => ?_
      have hv := ih x hx
      have htexts := h x hx
      have hblock := hb x hx
      obtain ⟨n, v, j⟩ := x
      obtain ⟨hn, htexts⟩ := List.forall_mem_cons.1 htexts
      exact (hn.append (by decide)).append (hv htexts hblock)
    rw [value, objectFields_eq]
    exact (Unbroken.append (by decide) (.intercalate (by decide) hfields)).append (by decide)

/-! ## Arguments and directives -/

theorem shifts_argument {a : Argument α} (h : ∀ t ∈ a.texts, Unbroken t) :
    Shifts fun depth => argument depth a := by
  obtain ⟨hn, hv⟩ := List.forall_mem_cons.1 h
  exact shifts_labelled hn (shifts_value hv)

theorem shifts_argumentLine {as : List (Argument α)}
    (h : ∀ a ∈ as, ∀ t ∈ a.texts, Unbroken t) : Shifts fun depth => argumentLine depth as :=
  .intercalate (.single (by decide)) fun a ha => shifts_argument (h a ha)

theorem shifts_argumentLines {as : List (Argument α)}
    (h : ∀ a ∈ as, ∀ t ∈ a.texts, Unbroken t) : Shifts fun depth => argumentLines depth as := by
  have hitems := Shifts.intercalate .lineFeed fun a ha => shifts_argument (h a ha)
  exact (Shifts.lineFeed.append hitems).deeper.append .lineFeed

theorem shifts_inParens {u : Nat → String} (hu : Shifts u) :
    Shifts fun depth => inParens (u depth) :=
  (Shifts.append (.single (by decide)) hu).append (.single (by decide))

theorem shifts_directive {d : Directive α} (h : ∀ t ∈ d.texts, Unbroken t) :
    Shifts fun depth => directive depth d := by
  obtain ⟨hn, has⟩ := List.forall_mem_cons.1 h
  refine .append (.single (.append (by decide) hn)) ?_
  by_cases hempty : d.arguments.isEmpty = true
  · simpa only [if_pos hempty] using Shifts.single (by decide : Unbroken "")
  · simpa only [if_neg hempty] using
      shifts_inParens (shifts_argumentLine (List.forall_mem_flatMap.1 has))

theorem shifts_directives {ds : List (Directive α)} (h : ∀ d ∈ ds, ∀ t ∈ d.texts, Unbroken t) :
    Shifts fun depth => directives depth ds := by
  induction ds with
  | nil => exact .single (by decide)
  | cons d ds ih =>
    obtain ⟨hd, hds⟩ := List.forall_mem_cons.1 h
    simp only [directives_cons]
    exact (Shifts.append (.single (by decide)) (shifts_directive hd)).append (ih hds)

/-! ## Fields -/

/-- Arguments without a block string have one width at all depths. -/
theorem argumentLine_eq_zero {as : List (Argument α)} (h : ∀ a ∈ as, ∀ t ∈ a.texts, Unbroken t)
    (hb : ∀ a ∈ as, NoBlock (a.strings 0)) (depth : Nat) :
    argumentLine depth as = argumentLine 0 as := by
  have hitems : ∀ t ∈ as.map (argument 0), Unbroken t := by
    refine List.forall_mem_map.2 fun a ha => ?_
    obtain ⟨hn, hv⟩ := List.forall_mem_cons.1 (h a ha)
    exact (hn.append (by decide)).append (unbroken_value hv (hb a ha))
  exact (shifts_argumentLine h).eq_zero (.intercalate (by decide) hitems) depth

/-- Whether arguments without a block string stand on the line of their field is
decided by their width at the margin. -/
theorem fieldArguments_eq {as : List (Argument α)} (h : ∀ a ∈ as, ∀ t ∈ a.texts, Unbroken t)
    (hb : ∀ a ∈ as, NoBlock (a.strings 0)) (depth width : Nat) :
    fieldArguments depth width as =
      if as.isEmpty then ""
      else if width + (argumentLine 0 as).length + 2 > maxLineLength then
        inParens (argumentLines depth as)
      else inParens (argumentLine 0 as) := by
  simp only [fieldArguments, argumentLine_eq_zero h hb depth]

theorem shifts_fieldArguments {as : List (Argument α)}
    (h : ∀ a ∈ as, ∀ t ∈ a.texts, Unbroken t) (hb : ∀ a ∈ as, NoBlock (a.strings 0))
    (width : Nat) : Shifts fun depth => fieldArguments depth width as := by
  have hlines := shifts_inParens (shifts_argumentLines h)
  have hline := shifts_inParens (shifts_argumentLine h)
  simp only [argumentLine_eq_zero h hb] at hline
  simp only [fieldArguments_eq h hb]
  split
  · exact .single (by decide)
  · split
    · exact hlines
    · exact hline

theorem unbroken_fieldName {a : Option (Name α)} {n : Name α}
    (h : ∀ t ∈ (a.toList ++ [n]).map Name.value, Unbroken t) : Unbroken (fieldName a n) := by
  cases a with
  | none => exact h _ (.head _)
  | some m => exact ((h _ (.head _)).append (by decide)).append (h _ (.tail _ (.head _)))

theorem shifts_fieldHead {a : Option (Name α)} {n : Name α} {as : List (Argument α)}
    {ds : List (Directive α)} (hname : ∀ t ∈ (a.toList ++ [n]).map Name.value, Unbroken t)
    (has : ∀ t ∈ as.flatMap Argument.texts, Unbroken t)
    (hds : ∀ t ∈ ds.flatMap Directive.texts, Unbroken t)
    (hb : ∀ x ∈ as, NoBlock (x.strings 0)) : Shifts fun depth => fieldHead depth a n as ds :=
  ((Shifts.single (unbroken_fieldName hname)).append
    (shifts_fieldArguments (List.forall_mem_flatMap.1 has) hb (fieldName a n).length)).append
      (shifts_directives (List.forall_mem_flatMap.1 hds))

/-! ## Selections -/

theorem shifts_spread {s : FragmentSpread α} (hname : Unbroken s.name.value)
    (hds : ∀ t ∈ s.directives.flatMap Directive.texts, Unbroken t) :
    Shifts fun depth => spread depth s :=
  (Shifts.single (.append (by decide) hname)).append
    (shifts_directives (List.forall_mem_flatMap.1 hds))

theorem shifts_inlineHead {c : Option (NamedType α)} {ds : List (Directive α)}
    (hc : ∀ t ∈ c.toList.map (fun t => t.name.value), Unbroken t)
    (hds : ∀ t ∈ ds.flatMap Directive.texts, Unbroken t) :
    Shifts fun depth => inlineHead depth c ds := by
  refine .append ?_ (shifts_directives (List.forall_mem_flatMap.1 hds))
  cases c with
  | none => exact .single (show Unbroken ("..." ++ "") by decide)
  | some t => exact .single (.append (by decide) (.append (by decide) (hc _ (.head _))))

theorem shifts_selection {s : Selection α} (h : ∀ t ∈ s.texts, Unbroken t)
    (hb : ∀ a ∈ s.fieldArguments, NoBlock (a.strings 0))
    (hset : ∀ set ∈ s.inner?, (∀ t ∈ set.texts, Unbroken t) →
      (∀ a ∈ set.fieldArguments, NoBlock (a.strings 0)) →
      Shifts fun depth => selectionSet depth set) :
    Shifts fun depth => selection depth s := by
  cases s with
  | field a n as ds set i =>
    cases set with
    | none =>
      simp only [Selection.texts, List.forall_mem_append] at h
      exact shifts_fieldHead h.1.1 h.1.2 h.2 hb
    | some set =>
      simp only [Selection.texts, Selection.fieldArguments, List.forall_mem_append] at h hb
      exact (shifts_fieldHead h.1.1.1 h.1.1.2 h.1.2 hb.1).append (hset set rfl h.2 hb.2).afterSpace
  | spread s =>
    obtain ⟨hname, hds⟩ := List.forall_mem_cons.1 h
    exact shifts_spread hname hds
  | inlineFragment t ds set i =>
    simp only [Selection.texts, List.forall_mem_append] at h
    exact (shifts_inlineHead h.1.1 h.1.2).append (hset set rfl h.2 hb).afterSpace

theorem shifts_selections {ss : List (Selection α)}
    (h : ∀ s ∈ ss, Shifts fun depth => selection depth s) :
    Shifts fun depth => selections depth ss := by
  induction ss with
  | nil => exact .single (by decide)
  | cons s ss ih =>
    obtain ⟨hs, hss⟩ := List.forall_mem_cons.1 h
    exact (Shifts.lineFeed.append hs).append (ih hss)

theorem shifts_selectionSet {set : SelectionSet α} (h : ∀ t ∈ set.texts, Unbroken t)
    (hb : ∀ a ∈ set.fieldArguments, NoBlock (a.strings 0)) :
    Shifts fun depth => selectionSet depth set := by
  induction set using SelectionSet.induct with
  | mk items i ih =>
    rw [SelectionSet.texts, Selection.allTexts_eq, List.forall_mem_flatMap] at h
    rw [SelectionSet.fieldArguments, Selection.allFieldArguments_eq, List.forall_mem_flatMap] at hb
    have hitems := shifts_selections fun s hs => shifts_selection (h s hs) (hb s hs) (ih s hs)
    cases items with
    | nil => exact .single (by decide)
    | cons s ss =>
      exact ((Shifts.append (.single (by decide)) hitems.deeper).append .lineFeed).append
        (.single (by decide))

end Printer

end QueryDoc
