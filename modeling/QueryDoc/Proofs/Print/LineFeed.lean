import QueryDoc.Proofs.Print.Depth
import Mathlib.Data.List.DropRight

/-!
# One line feed for the whole tree

The printer need not be told how deep a node lies. A single line feed is enough,
which grows by a level before the selections of a set and before arguments on
lines of their own, and loses that level behind them. Arguments that turn out too
wide for one line are printed a second time.

Such a printer gives each node the text of its depth and leaves the line feed as
it was, whatever it prints. So nodes that are printed one after the other do not
see each other, and each of them gets the text that it has by itself, moved to
the depth at which it stands.
-/
namespace QueryDoc

variable {α γ : Type}

namespace Printer.Threaded

/-! ## Printing with a line feed in hand -/

/-- Lines start two characters further in. -/
def grow : StateM String Unit := modify (· ++ "  ")

/-- Takes two characters off the line feed. -/
def shrink : StateM String Unit := modify fun feed => String.ofList (feed.toList.rdrop 2)

/-- Items with a text between them. -/
def join (sep : String) (item : γ → StateM String String) (xs : List γ) :
    StateM String String := do
  return sep.intercalate (← xs.mapM item)

def stringValue (s : StringValue α) : StateM String String := do
  if s.block then
    return withLineFeed (← get) (StringLiteral.quoteBlock s.value.toList)
  else
    return String.ofList (StringLiteral.quote s.value.toList)

mutual

def value : Value α → StateM String String
  | .variable v => return varRef v
  | .int text _ => return text
  | .float text _ => return text
  | .string s => stringValue s
  | .boolean b _ => return boolean b
  | .null _ => return "null"
  | .enum name _ => return name
  | .list items _ => return "[" ++ ", ".intercalate (← values items) ++ "]"
  | .object fields _ => return "\x7b" ++ ", ".intercalate (← objectFields fields) ++ "\x7d"

def values : List (Value α) → StateM String (List String)
  | [] => return []
  | v :: vs => return (← value v) :: (← values vs)

def objectField : ObjectField α → StateM String String
  | .mk name v _ => return name.value ++ ": " ++ (← value v)

def objectFields : List (ObjectField α) → StateM String (List String)
  | [] => return []
  | x :: xs => return (← objectField x) :: (← objectFields xs)

end

def argument (a : Argument α) : StateM String String :=
  return a.name.value ++ ": " ++ (← value a.value)

def directive (d : Directive α) : StateM String String := do
  if d.arguments.isEmpty then
    return "@" ++ d.name.value
  else
    return "@" ++ d.name.value ++ inParens (← join ", " argument d.arguments)

def directives (ds : List (Directive α)) : StateM String String := do
  if ds.isEmpty then
    return ""
  else
    return " " ++ (← join " " directive ds)

/-- Arguments on lines of their own. -/
def argumentLines (as : List (Argument α)) : StateM String String := do
  grow
  let feed ← get
  let lines ← join feed argument as
  shrink
  return feed ++ lines ++ (← get)

def fieldArguments (width : Nat) (as : List (Argument α)) : StateM String String := do
  if as.isEmpty then
    return ""
  else
    let line ← join ", " argument as
    if width + line.length + 2 > maxLineLength then
      return inParens (← argumentLines as)
    else
      return inParens line

def fieldHead (aliasName : Option (Name α)) (name : Name α) (arguments : List (Argument α))
    (ds : List (Directive α)) : StateM String String := do
  let shown := fieldName aliasName name
  let arguments ← fieldArguments shown.length arguments
  return shown ++ arguments ++ (← directives ds)

def spread (s : FragmentSpread α) : StateM String String :=
  return "..." ++ s.name.value ++ (← directives s.directives)

def inlineHead (typeCondition : Option (NamedType α)) (ds : List (Directive α)) :
    StateM String String :=
  return "..." ++ (match typeCondition with
    | some t => " on " ++ t.name.value
    | none => "") ++ (← directives ds)

mutual

def selection : Selection α → StateM String String
  | .field aliasName name arguments ds none _ => fieldHead aliasName name arguments ds
  | .field aliasName name arguments ds (some set) _ => do
    let head ← fieldHead aliasName name arguments ds
    return head ++ afterSpace (← selectionSet set)
  | .spread s => spread s
  | .inlineFragment typeCondition ds set _ => do
    let head ← inlineHead typeCondition ds
    return head ++ afterSpace (← selectionSet set)

/-- Selections, each on a line of its own. -/
def selections : List (Selection α) → StateM String String
  | [] => return ""
  | s :: ss => do
    let feed ← get
    let text ← selection s
    return feed ++ text ++ (← selections ss)

def selectionSet : SelectionSet α → StateM String String
  | .mk [] _ => return ""
  | .mk (s :: ss) _ => do
    grow
    let lines ← selections (s :: ss)
    shrink
    return "\x7b" ++ lines ++ (← get) ++ "\x7d"

end

/-! ## The text of each depth -/

/-- A run that starts with the line feed of a depth gives what belongs to that
depth and leaves the line feed as it was. -/
def Threads (m : StateM String γ) (x : Nat → γ) : Prop :=
  ∀ depth, m.run (lineFeed depth) = pure (x depth, lineFeed depth)

theorem lineFeed_succ (depth : Nat) : lineFeed (depth + 1) = lineFeed depth ++ "  " := by
  rw [← String.toList_inj]
  simp only [lineFeed, String.toList_append, String.toList_ofList, Nat.mul_add,
    ← List.replicate_append_replicate, List.append_assoc]
  rfl

theorem run_grow (depth : Nat) :
    grow.run (lineFeed depth) = pure ((), lineFeed (depth + 1)) := by
  rw [lineFeed_succ]
  rfl

theorem run_shrink (depth : Nat) :
    shrink.run (lineFeed (depth + 1)) = pure ((), lineFeed depth) := by
  have hfeed : String.ofList ((lineFeed (depth + 1)).toList.rdrop 2) = lineFeed depth := by
    rw [lineFeed_succ, String.toList_append, ← String.toList_inj]
    simp [List.rdrop]
  rw [← hfeed]
  rfl

theorem Threads.mapM {m : γ → StateM String String} {text : Nat → γ → String} {xs : List γ}
    (h : ∀ x ∈ xs, Threads (m x) fun depth => text depth x) :
    Threads (xs.mapM m) fun depth => xs.map (text depth) := by
  intro depth
  induction xs with
  | nil => rfl
  | cons x xs ih =>
    obtain ⟨hx, hxs⟩ := List.forall_mem_cons.1 h
    simp [hx depth, ih hxs]

theorem threads_stringValue (s : StringValue α) :
    Threads (stringValue s) fun depth => Printer.stringValue depth s := by
  intro depth
  by_cases hb : s.block = true <;> simp [stringValue, Printer.stringValue, hb]

theorem threads_value (v : Value α) : Threads (value v) fun depth => Printer.value depth v := by
  induction v using Value.induct with
  | string s => exact threads_stringValue s
  | list items i ih =>
    have hitems : Threads (values items) fun depth => items.map (Printer.value depth) := by
      intro depth
      induction items with
      | nil => rfl
      | cons v vs ihs =>
        obtain ⟨hv, hvs⟩ := List.forall_mem_cons.1 ih
        simp [values, hv depth, ihs hvs]
    intro depth
    simp [value, hitems depth, Printer.value, values_eq]
  | object fields i ih =>
    have hfields : Threads (objectFields fields) fun depth =>
        fields.map (Printer.objectField depth) := by
      intro depth
      induction fields with
      | nil => rfl
      | cons x xs ihs =>
        obtain ⟨hx, hxs⟩ := List.forall_mem_cons.1 ih
        obtain ⟨n, v, j⟩ := x
        have hv := hx depth
        simp only [ObjectField.value] at hv
        simp [objectFields, objectField, Printer.objectField, hv, ihs hxs]
    intro depth
    simp [value, hfields depth, Printer.value, objectFields_eq]
  | _ => exact fun depth => rfl

theorem threads_argument (a : Argument α) :
    Threads (argument a) fun depth => Printer.argument depth a := by
  intro depth
  simp [argument, Printer.argument, threads_value a.value depth]

theorem threads_argumentLine (as : List (Argument α)) :
    Threads (join ", " argument as) fun depth => argumentLine depth as := by
  intro depth
  simp [join, argumentLine, Threads.mapM (fun a _ => threads_argument a) depth]

theorem threads_argumentLines (as : List (Argument α)) :
    Threads (argumentLines as) fun depth => Printer.argumentLines depth as := by
  intro depth
  simp [argumentLines, join, Printer.argumentLines, run_grow, run_shrink,
    Threads.mapM (fun a _ => threads_argument a) (depth + 1)]

theorem threads_directive (d : Directive α) :
    Threads (directive d) fun depth => Printer.directive depth d := by
  intro depth
  by_cases hempty : d.arguments.isEmpty = true <;>
    simp [directive, Printer.directive, hempty, threads_argumentLine d.arguments depth]

theorem directives_eq (depth : Nat) {ds : List (Directive α)} (hne : ds ≠ []) :
    Printer.directives depth ds = " " ++ " ".intercalate (ds.map (Printer.directive depth)) := by
  induction ds with
  | nil => exact absurd rfl hne
  | cons d ds ih =>
    cases ds with
    | nil => simp [Printer.directives]
    | cons e es =>
      rw [directives_cons, ih (List.cons_ne_nil e es)]
      simp only [List.map_cons, String.intercalate_cons_cons, String.append_assoc]

theorem threads_directives (ds : List (Directive α)) :
    Threads (directives ds) fun depth => Printer.directives depth ds := by
  intro depth
  by_cases hempty : ds = []
  · subst hempty
    rfl
  · have htexts : Threads (ds.mapM directive) fun depth => ds.map (Printer.directive depth) :=
      Threads.mapM fun d _ => threads_directive d
    simp [directives, join, hempty, htexts depth, directives_eq depth hempty]

theorem threads_fieldArguments (width : Nat) (as : List (Argument α)) :
    Threads (fieldArguments width as) fun depth => Printer.fieldArguments depth width as := by
  intro depth
  unfold fieldArguments Printer.fieldArguments
  split
  · rfl
  · simp only [StateT.run_bind, threads_argumentLine as depth, pure_bind]
    split
    · simp [threads_argumentLines as depth]
    · rfl

theorem threads_fieldHead (a : Option (Name α)) (n : Name α) (as : List (Argument α))
    (ds : List (Directive α)) :
    Threads (fieldHead a n as ds) fun depth => Printer.fieldHead depth a n as ds := by
  intro depth
  simp [fieldHead, Printer.fieldHead, threads_fieldArguments _ as depth,
    threads_directives ds depth]

theorem threads_spread (s : FragmentSpread α) :
    Threads (spread s) fun depth => Printer.spread depth s := by
  intro depth
  simp [spread, Printer.spread, threads_directives s.directives depth]

theorem threads_inlineHead (t : Option (NamedType α)) (ds : List (Directive α)) :
    Threads (inlineHead t ds) fun depth => Printer.inlineHead depth t ds := by
  intro depth
  cases t <;> simp [inlineHead, Printer.inlineHead, threads_directives ds depth]

theorem threads_selection {s : Selection α}
    (h : ∀ set ∈ s.inner?, Threads (selectionSet set) fun depth => Printer.selectionSet depth set) :
    Threads (selection s) fun depth => Printer.selection depth s := by
  intro depth
  cases s with
  | field a n as ds set i =>
    cases set with
    | none => exact threads_fieldHead a n as ds depth
    | some set =>
      simp [selection, Printer.selection, threads_fieldHead a n as ds depth, h set rfl depth]
  | spread s => exact threads_spread s depth
  | inlineFragment t ds set i =>
    simp [selection, Printer.selection, threads_inlineHead t ds depth, h set rfl depth]

theorem threads_selections {ss : List (Selection α)}
    (h : ∀ s ∈ ss, Threads (selection s) fun depth => Printer.selection depth s) :
    Threads (selections ss) fun depth => Printer.selections depth ss := by
  intro depth
  induction ss with
  | nil => rfl
  | cons s ss ih =>
    obtain ⟨hs, hss⟩ := List.forall_mem_cons.1 h
    simp [selections, selections_cons, hs depth, ih hss]

theorem threads_selectionSet (set : SelectionSet α) :
    Threads (selectionSet set) fun depth => Printer.selectionSet depth set := by
  induction set using SelectionSet.induct with
  | mk items i ih =>
    have hitems := threads_selections fun s hs => threads_selection (ih s hs)
    intro depth
    cases items with
    | nil => rfl
    | cons s ss =>
      simp [selectionSet, Printer.selectionSet, run_grow, run_shrink, hitems (depth + 1)]

end Printer.Threaded

/-! ## Pieces of a document -/

/-- What may lie at any depth of a document. -/
inductive Piece (α : Type) where
  | selection (s : Selection α)
  | selectionSet (s : SelectionSet α)
  | directive (d : Directive α)
  | argument (a : Argument α)
  | value (v : Value α)

namespace Piece

/-- The piece as a node that is printed by itself. -/
def node : Piece α → Node α
  | .selection s => .selection s
  | .selectionSet s => .selectionSet s
  | .directive d => .directive d
  | .argument a => .argument a
  | .value v => .value v

/-- The text of the piece at a depth. -/
def printAt (depth : Nat) : Piece α → String
  | .selection s => Printer.selection depth s
  | .selectionSet s => Printer.selectionSet depth s
  | .directive d => Printer.directive depth d
  | .argument a => Printer.argument depth a
  | .value v => Printer.value depth v

/-- Prints the piece where the line feed at hand says. -/
def thread : Piece α → StateM String String
  | .selection s => Printer.Threaded.selection s
  | .selectionSet s => Printer.Threaded.selectionSet s
  | .directive d => Printer.Threaded.directive d
  | .argument a => Printer.Threaded.argument a
  | .value v => Printer.Threaded.value v

/-- The names and the numbers in the piece. -/
def texts : Piece α → List String
  | .selection s => s.texts
  | .selectionSet s => s.texts
  | .directive d => d.texts
  | .argument a => a.texts
  | .value v => v.texts

/-- The arguments of all fields in the piece. -/
def fieldArguments : Piece α → List (Argument α)
  | .selection s => s.fieldArguments
  | .selectionSet s => s.fieldArguments
  | _ => []

/-- Names and numbers stay on their line, and fields have no block string among
their arguments. -/
structure IsPlain (p : Piece α) : Prop where
  texts : ∀ t ∈ p.texts, Unbroken t
  arguments : ∀ a ∈ p.fieldArguments, NoBlock (a.strings 0)

theorem printAt_zero (p : Piece α) : p.printAt 0 = p.node.print := by cases p <;> rfl

theorem threads (p : Piece α) :
    Printer.Threaded.Threads p.thread fun depth => p.printAt depth := by
  cases p with
  | selection s =>
    exact Printer.Threaded.threads_selection fun set _ => Printer.Threaded.threads_selectionSet set
  | selectionSet s => exact Printer.Threaded.threads_selectionSet s
  | directive d => exact Printer.Threaded.threads_directive d
  | argument a => exact Printer.Threaded.threads_argument a
  | value v => exact Printer.Threaded.threads_value v

theorem IsPlain.shifts {p : Piece α} (h : p.IsPlain) : Shifts fun depth => p.printAt depth := by
  obtain ⟨htexts, hargs⟩ := h
  cases p with
  | selection s =>
    exact Printer.shifts_selection htexts hargs fun set _ => Printer.shifts_selectionSet
  | selectionSet s => exact Printer.shifts_selectionSet htexts hargs
  | directive d => exact Printer.shifts_directive htexts
  | argument a => exact Printer.shifts_argument htexts
  | value v => exact Printer.shifts_value htexts

theorem IsPlain.printAt_eq {p : Piece α} (h : p.IsPlain) (depth : Nat) :
    p.printAt depth = indented depth p.node.print := by
  rw [← printAt_zero]
  exact h.shifts depth

/-- The arguments of a plain field are those of a plain piece. -/
theorem IsPlain.ofField {a : Option (Name α)} {n : Name α} {as : List (Argument α)}
    {ds : List (Directive α)} {set : Option (SelectionSet α)} {i : α}
    (h : (Piece.selection (.field a n as ds set i)).IsPlain) :
    (∀ x ∈ as, ∀ t ∈ x.texts, Unbroken t) ∧ ∀ x ∈ as, NoBlock (x.strings 0) := by
  obtain ⟨htexts, hargs⟩ := h
  cases set with
  | none =>
    simp only [Piece.texts, Selection.texts, List.forall_mem_append] at htexts
    exact ⟨List.forall_mem_flatMap.1 htexts.1.2, hargs⟩
  | some set =>
    simp only [Piece.texts, Piece.fieldArguments, Selection.texts, Selection.fieldArguments,
      List.forall_mem_append] at htexts hargs
    exact ⟨List.forall_mem_flatMap.1 htexts.1.1.2, hargs.1⟩

end Piece

/-- **Depth only indents.** At each depth a piece has the text that it has by
itself, with all lines but the first moved to that depth. The arguments of a
field go on lines of their own if they are too wide at the margin, wherever the
field stands. And pieces that are printed one after the other with a single line
feed, which grows and shrinks on the way, have these texts each; the line feed is
then what it was. -/
theorem print_compositional (depth : Nat) :
    (∀ p : Piece α, p.IsPlain → p.printAt depth = indented depth p.node.print) ∧
    (∀ (a : Option (Name α)) (n : Name α) (as : List (Argument α)) (ds : List (Directive α))
      (set : Option (SelectionSet α)) (i : α),
      (Piece.selection (.field a n as ds set i)).IsPlain →
        Printer.fieldArguments depth (Printer.fieldName a n).length as =
          if as.isEmpty then ""
          else if (Printer.fieldName a n).length + (Printer.argumentLine 0 as).length + 2 >
              maxLineLength then
            Printer.inParens (Printer.argumentLines depth as)
          else Printer.inParens (Printer.argumentLine 0 as)) ∧
    (∀ ps : List (Piece α), (∀ p ∈ ps, p.IsPlain) →
      (ps.mapM Piece.thread).run (lineFeed depth) =
        pure (ps.map fun p => indented depth p.node.print, lineFeed depth)) := by
  refine ⟨fun p hp => hp.printAt_eq depth, ?_, ?_⟩
  · intro a n as ds set i h
    obtain ⟨htexts, hargs⟩ := h.ofField
    exact Printer.fieldArguments_eq htexts hargs depth (Printer.fieldName a n).length
  · intro ps hps
    have htexts : ps.map (Piece.printAt depth) = ps.map fun p => indented depth p.node.print :=
      List.map_congr_left fun p hp => (hps p hp).printAt_eq depth
    rw [Printer.Threaded.Threads.mapM (fun p _ => p.threads) depth, ← htexts]

/-- An argument that fills a line. -/
def wideArguments : List (Argument Unit) :=
  [⟨⟨"x", ()⟩, .enum (String.ofList (List.replicate 80 'a')) (), ()⟩]

/-- A field with such an argument, and a block string at its directive. -/
def wideField : Selection Unit :=
  .field none ⟨"f", ()⟩ wideArguments
    [⟨⟨"d", ()⟩, [⟨⟨"y", ()⟩, .string ⟨"b", true, ()⟩, ()⟩], ()⟩] none ()

/-- The text of the field one level below the margin. -/
def wideText : String :=
  "f(\n    x: " ++ String.ofList (List.replicate 80 'a') ++
    "\n  ) @d(y: \"\"\"\n  b\n  \"\"\")"

theorem wideField_compositional :
    Printer.selection 1 wideField = wideText ∧
      Printer.fieldArguments 1 1 wideArguments =
        Printer.inParens (Printer.argumentLines 1 wideArguments) ∧
      ([Piece.selection wideField, .selection wideField].mapM Piece.thread).run (lineFeed 1) =
        pure ([wideText, wideText], lineFeed 1) := by
  obtain ⟨hprint, hwrap, hrun⟩ := print_compositional (α := Unit) 1
  have hplain : (Piece.selection wideField).IsPlain := by
    refine ⟨by decide, ?_⟩
    intro a ha p hp
    rw [List.mem_singleton.1 ha] at hp
    cases hp
  have htext : indented 1 (Node.selection wideField).print = wideText := by decide +kernel
  have hwide : 1 + (Printer.argumentLine 0 wideArguments).length + 2 > maxLineLength := by
    decide +kernel
  refine ⟨(hprint _ hplain).trans htext, ?_, ?_⟩
  · have hdecision := hwrap none ⟨"f", ()⟩ wideArguments _ none () hplain
    have hshown : (Printer.fieldName none (⟨"f", ()⟩ : Name Unit)).length = 1 := rfl
    rwa [hshown, if_neg (by decide), if_pos hwide] at hdecision
  · rw [hrun _ (List.forall_mem_cons.2 ⟨hplain, List.forall_mem_singleton.2 hplain⟩), ← htext]
    rfl

end QueryDoc
