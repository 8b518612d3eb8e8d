import QueryDoc.Proofs.Syntax.Nesting
import QueryDoc.Proofs.Syntax.Induction
import QueryDoc.Syntax.Printer

/-!
# The strings of a tree

Where a string is printed matters for block strings alone: their lines are
indented with what surrounds them. `strings` lists the strings of a tree with the
depth at which each is printed, in the order in which they are printed, and
`rewrite` replaces the text of every block string by one that may depend on that
depth. Nothing else changes but what nodes carry, which is dropped.

The arguments of a field that does not fit on its line lie one level deeper, so
the depth of a string depends on how wide the texts around it are.
-/
namespace QueryDoc

variable {α : Type}

/-- The depth at which the arguments of a field are printed. -/
def argumentDepth (depth : Nat) (aliasName : Option (Name α)) (name : Name α)
    (arguments : List (Argument α)) : Nat :=
  if (Printer.fieldName aliasName name).length +
      (Printer.argumentLine depth arguments).length + 2 > maxLineLength then depth + 1
  else depth

/-! ## Listing -/

section Listing

mutual

def Value.strings (depth : Nat) : Value α → List (Nat × StringValue α)
  | .string s => [(depth, s)]
  | .list items _ => Value.allStrings depth items
  | .object fields _ => ObjectField.allStrings depth fields
  | _ => []

def Value.allStrings (depth : Nat) : List (Value α) → List (Nat × StringValue α)
  | [] => []
  | v :: vs => v.strings depth ++ Value.allStrings depth vs

def ObjectField.strings (depth : Nat) : ObjectField α → List (Nat × StringValue α)
  | .mk _ v _ => v.strings depth

def ObjectField.allStrings (depth : Nat) : List (ObjectField α) → List (Nat × StringValue α)
  | [] => []
  | x :: xs => x.strings depth ++ ObjectField.allStrings depth xs

end

def Argument.strings (depth : Nat) (a : Argument α) : List (Nat × StringValue α) :=
  a.value.strings depth

def Directive.strings (depth : Nat) (d : Directive α) : List (Nat × StringValue α) :=
  d.arguments.flatMap (Argument.strings depth)

mutual

def Selection.strings (depth : Nat) : Selection α → List (Nat × StringValue α)
  | .field a n as ds none _ =>
    as.flatMap (Argument.strings (argumentDepth depth a n as)) ++
      ds.flatMap (Directive.strings depth)
  | .field a n as ds (some set) _ =>
    as.flatMap (Argument.strings (argumentDepth depth a n as)) ++
      ds.flatMap (Directive.strings depth) ++ set.strings depth
  | .spread s => s.directives.flatMap (Directive.strings depth)
  | .inlineFragment _ ds set _ => ds.flatMap (Directive.strings depth) ++ set.strings depth

def Selection.allStrings (depth : Nat) : List (Selection α) → List (Nat × StringValue α)
  | [] => []
  | s :: ss => s.strings depth ++ Selection.allStrings depth ss

def SelectionSet.strings (depth : Nat) : SelectionSet α → List (Nat × StringValue α)
  | .mk items _ => Selection.allStrings (depth + 1) items

end

/-- The string of a description, which is never indented. -/
def descriptionStrings (d : Option (StringValue α)) : List (Nat × StringValue α) :=
  d.toList.map (0, ·)

def VariableDefinition.strings (v : VariableDefinition α) : List (Nat × StringValue α) :=
  descriptionStrings v.description ++ (v.default.toList.flatMap (Value.strings 0) ++
    v.directives.flatMap (Directive.strings 0))

def Operation.strings (o : Operation α) : List (Nat × StringValue α) :=
  descriptionStrings o.description ++ (o.variableDefinitions.flatMap VariableDefinition.strings ++
    (o.directives.flatMap (Directive.strings 0) ++ o.selections.strings 0))

def Fragment.strings (f : Fragment α) : List (Nat × StringValue α) :=
  descriptionStrings f.description ++
    (f.directives.flatMap (Directive.strings 0) ++ f.selections.strings 0)

def Definition.strings : Definition α → List (Nat × StringValue α)
  | .operation o => o.strings
  | .fragment f => f.strings

def Document.strings (d : Document α) : List (Nat × StringValue α) :=
  d.definitions.flatMap Definition.strings

/-- The strings of a node that is printed by itself. -/
def Node.strings : Node α → List (Nat × StringValue α)
  | .name _ => []
  | .document d => d.strings
  | .definition d => d.strings
  | .variableDefinition v => v.strings
  | .selectionSet s => s.strings 0
  | .selection s => s.strings 0
  | .argument a => a.strings 0
  | .value v => v.strings 0
  | .objectField x => x.strings 0
  | .directive d => d.strings 0
  | .type _ => []

end Listing

/-! ## Rewriting -/

section Rewriting
variable (f : Nat → String → String)

def StringValue.rewrite (depth : Nat) (s : StringValue α) : StringValue Unit :=
  ⟨if s.block then f depth s.value else s.value, s.block, ()⟩

mutual

def Value.rewrite (depth : Nat) : Value α → Value Unit
  | .variable v => .variable (v.map forget)
  | .int text _ => .int text ()
  | .float text _ => .float text ()
  | .string s => .string (s.rewrite f depth)
  | .boolean b _ => .boolean b ()
  | .null _ => .null ()
  | .enum name _ => .enum name ()
  | .list items _ => .list (Value.rewriteAll depth items) ()
  | .object fields _ => .object (ObjectField.rewriteAll depth fields) ()

def Value.rewriteAll (depth : Nat) : List (Value α) → List (Value Unit)
  | [] => []
  | v :: vs => v.rewrite depth :: Value.rewriteAll depth vs

def ObjectField.rewrite (depth : Nat) : ObjectField α → ObjectField Unit
  | .mk n v _ => .mk (n.map forget) (v.rewrite depth) ()

def ObjectField.rewriteAll (depth : Nat) : List (ObjectField α) → List (ObjectField Unit)
  | [] => []
  | x :: xs => x.rewrite depth :: ObjectField.rewriteAll depth xs

end

def Argument.rewrite (depth : Nat) (a : Argument α) : Argument Unit :=
  ⟨a.name.map forget, a.value.rewrite f depth, ()⟩

def Directive.rewrite (depth : Nat) (d : Directive α) : Directive Unit :=
  ⟨d.name.map forget, d.arguments.map (Argument.rewrite f depth), ()⟩

mutual

def Selection.rewrite (depth : Nat) : Selection α → Selection Unit
  | .field a n as ds none _ =>
    .field (a.map (Name.map forget)) (n.map forget)
      (as.map (Argument.rewrite f (argumentDepth depth a n as)))
      (ds.map (Directive.rewrite f depth)) none ()
  | .field a n as ds (some set) _ =>
    .field (a.map (Name.map forget)) (n.map forget)
      (as.map (Argument.rewrite f (argumentDepth depth a n as)))
      (ds.map (Directive.rewrite f depth)) (some (set.rewrite depth)) ()
  | .spread s => .spread ⟨s.name.map forget, s.directives.map (Directive.rewrite f depth), ()⟩
  | .inlineFragment t ds set _ =>
    .inlineFragment (t.map (NamedType.map forget)) (ds.map (Directive.rewrite f depth))
      (set.rewrite depth) ()

def Selection.rewriteAll (depth : Nat) : List (Selection α) → List (Selection Unit)
  | [] => []
  | s :: ss => s.rewrite depth :: Selection.rewriteAll depth ss

def SelectionSet.rewrite (depth : Nat) : SelectionSet α → SelectionSet Unit
  | .mk items _ => .mk (Selection.rewriteAll (depth + 1) items) ()

end

def VariableDefinition.rewrite (v : VariableDefinition α) : VariableDefinition Unit where
  description := v.description.map (StringValue.rewrite f 0)
  var := v.var.map forget
  type := v.type.map forget
  default := v.default.map (Value.rewrite f 0)
  directives := v.directives.map (Directive.rewrite f 0)
  info := ()

def Operation.rewrite (o : Operation α) : Operation Unit where
  description := o.description.map (StringValue.rewrite f 0)
  kind := o.kind
  name := o.name.map (Name.map forget)
  variableDefinitions := o.variableDefinitions.map (VariableDefinition.rewrite f)
  directives := o.directives.map (Directive.rewrite f 0)
  selections := o.selections.rewrite f 0
  info := ()

def Fragment.rewrite (x : Fragment α) : Fragment Unit where
  description := x.description.map (StringValue.rewrite f 0)
  name := x.name.map forget
  typeCondition := x.typeCondition.map forget
  directives := x.directives.map (Directive.rewrite f 0)
  selections := x.selections.rewrite f 0
  info := ()

def Definition.rewrite : Definition α → Definition Unit
  | .operation o => .operation (o.rewrite f)
  | .fragment x => .fragment (x.rewrite f)

def Document.rewrite (d : Document α) : Document Unit :=
  ⟨d.definitions.map (Definition.rewrite f), ()⟩

end Rewriting

/-! ## Lists of children -/

section Children
variable (f : Nat → String → String) (depth : Nat)

@[simp] theorem Value.allStrings_eq (vs : List (Value α)) :
    Value.allStrings depth vs = vs.flatMap (Value.strings depth) := by
  induction vs with
  | nil => rfl
  | cons v vs ih => rw [Value.allStrings, ih, List.flatMap_cons]

@[simp] theorem ObjectField.allStrings_eq (xs : List (ObjectField α)) :
    ObjectField.allStrings depth xs = xs.flatMap (ObjectField.strings depth) := by
  induction xs with
  | nil => rfl
  | cons x xs ih => rw [ObjectField.allStrings, ih, List.flatMap_cons]

@[simp] theorem Selection.allStrings_eq (ss : List (Selection α)) :
    Selection.allStrings depth ss = ss.flatMap (Selection.strings depth) := by
  induction ss with
  | nil => rfl
  | cons s ss ih => rw [Selection.allStrings, ih, List.flatMap_cons]

@[simp] theorem Value.rewriteAll_eq (vs : List (Value α)) :
    Value.rewriteAll f depth vs = vs.map (Value.rewrite f depth) := by
  induction vs with
  | nil => rfl
  | cons v vs ih => rw [Value.rewriteAll, ih, List.map_cons]

@[simp] theorem ObjectField.rewriteAll_eq (xs : List (ObjectField α)) :
    ObjectField.rewriteAll f depth xs = xs.map (ObjectField.rewrite f depth) := by
  induction xs with
  | nil => rfl
  | cons x xs ih => rw [ObjectField.rewriteAll, ih, List.map_cons]

@[simp] theorem Selection.rewriteAll_eq (ss : List (Selection α)) :
    Selection.rewriteAll f depth ss = ss.map (Selection.rewrite f depth) := by
  induction ss with
  | nil => rfl
  | cons s ss ih => rw [Selection.rewriteAll, ih, List.map_cons]

variable (a : Option (Name α)) (n : Name α) (as : List (Argument α)) (ds : List (Directive α))
variable (set : Option (SelectionSet α)) (i : α)

theorem Selection.strings_field :
    (Selection.field a n as ds set i).strings depth =
      as.flatMap (Argument.strings (argumentDepth depth a n as)) ++
        (ds.flatMap (Directive.strings depth) ++
          set.toList.flatMap (SelectionSet.strings depth)) := by
  cases set <;> simp [Selection.strings]

theorem Selection.rewrite_field :
    (Selection.field a n as ds set i).rewrite f depth =
      .field (a.map (Name.map forget)) (n.map forget)
        (as.map (Argument.rewrite f (argumentDepth depth a n as)))
        (ds.map (Directive.rewrite f depth)) (set.map (SelectionSet.rewrite f depth)) () := by
  cases set <;> simp [Selection.rewrite]

end Children

/-! ## Rewriting keeps the nesting -/

section Nesting
variable (f : Nat → String → String) (depth : Nat)

@[simp] theorem Value.nesting_rewrite (v : Value α) : (v.rewrite f depth).nesting = v.nesting := by
  induction v using Value.induct with
  | list items i ih =>
    simp only [Value.rewrite, Value.nesting, Value.rewriteAll_eq, Value.nestingAll_eq,
      deepest_congr ih]
  | object fields i ih =>
    have hfields : ∀ x ∈ fields, (ObjectField.rewrite f depth x).nesting = x.nesting := by
      intro x hx
      obtain ⟨n, v, j⟩ := x
      exact ih _ hx
    simp only [Value.rewrite, Value.nesting, ObjectField.rewriteAll_eq, ObjectField.nestingAll_eq,
      deepest_congr hfields]
  | _ => rfl

@[simp] theorem Argument.nesting_rewrite (a : Argument α) :
    (a.rewrite f depth).nesting = a.nesting := Value.nesting_rewrite f depth a.value

@[simp] theorem Directive.nesting_rewrite (d : Directive α) :
    (d.rewrite f depth).nesting = d.nesting :=
  deepest_congr fun a _ => Argument.nesting_rewrite f depth a

theorem directives_nesting_rewrite (ds : List (Directive α)) :
    deepest Directive.nesting (ds.map (Directive.rewrite f depth)) =
      deepest Directive.nesting ds :=
  deepest_congr fun d _ => Directive.nesting_rewrite f depth d

theorem Selection.nesting_rewrite {s : Selection α}
    (h : ∀ set ∈ s.inner?, (set.rewrite f depth).nesting = set.nesting) :
    (s.rewrite f depth).nesting = s.nesting := by
  have harguments : ∀ d (as : List (Argument α)),
      deepest Argument.nesting (as.map (Argument.rewrite f d)) = deepest Argument.nesting as :=
    fun d as => deepest_congr fun a _ => Argument.nesting_rewrite f d a
  cases s with
  | field a n as ds set i =>
    cases set with
    | none =>
      simp only [Selection.rewrite, Selection.nesting, harguments, directives_nesting_rewrite]
    | some set =>
      simp only [Selection.rewrite, Selection.nesting, harguments, directives_nesting_rewrite,
        h set rfl]
  | spread s => exact directives_nesting_rewrite f depth s.directives
  | inlineFragment t ds set i =>
    simp only [Selection.rewrite, Selection.nesting, directives_nesting_rewrite, h set rfl]

@[simp] theorem SelectionSet.nesting_rewrite (set : SelectionSet α) :
    (set.rewrite f depth).nesting = set.nesting := by
  induction set using SelectionSet.induct generalizing depth with
  | mk items i ih =>
    simp only [SelectionSet.rewrite, SelectionSet.nesting, Selection.rewriteAll_eq,
      Selection.nestingAll_eq,
      deepest_congr fun s hs => Selection.nesting_rewrite f (depth + 1) fun set hset =>
        ih s hs set hset (depth + 1)]

theorem VariableDefinition.nesting_rewrite (v : VariableDefinition α) :
    (v.rewrite f).nesting = v.nesting := by
  cases hd : v.default <;>
    simp [VariableDefinition.nesting, VariableDefinition.rewrite, hd, directives_nesting_rewrite]

theorem Definition.nesting_rewrite (d : Definition α) : (d.rewrite f).nesting = d.nesting := by
  cases d with
  | operation o =>
    have hvars : deepest VariableDefinition.nesting
        (o.variableDefinitions.map (VariableDefinition.rewrite f)) =
        deepest VariableDefinition.nesting o.variableDefinitions :=
      deepest_congr fun v _ => VariableDefinition.nesting_rewrite f v
    simp only [Definition.rewrite, Definition.nesting, Operation.rewrite, Operation.nesting,
      hvars, directives_nesting_rewrite, SelectionSet.nesting_rewrite]
  | fragment x =>
    simp only [Definition.rewrite, Definition.nesting, Fragment.rewrite, Fragment.nesting,
      directives_nesting_rewrite, SelectionSet.nesting_rewrite]

theorem Document.nesting_rewrite (d : Document α) : (d.rewrite f).nesting = d.nesting :=
  deepest_congr fun x _ => Definition.nesting_rewrite f x

end Nesting

/-! ## Strings that stay as they are -/

/-- Every block string of the list has the text that replaces it. -/
def Fixes (f : Nat → String → String) (strings : List (Nat × StringValue α)) : Prop :=
  ∀ p ∈ strings, p.2.block = true → f p.1 p.2.value = p.2.value

section Fixes
variable {f : Nat → String → String} {depth : Nat}

@[simp] theorem fixes_append {ps qs : List (Nat × StringValue α)} :
    Fixes f (ps ++ qs) ↔ Fixes f ps ∧ Fixes f qs := List.forall_mem_append

theorem Fixes.of_mem {β : Type} {t : β → List (Nat × StringValue α)} {xs : List β}
    (h : Fixes f (xs.flatMap t)) {x : β} (hx : x ∈ xs) : Fixes f (t x) :=
  fun p hp => h p (List.mem_flatMap.2 ⟨x, hx, hp⟩)

theorem StringValue.rewrite_eq_map {s : StringValue α} (h : Fixes f [(depth, s)]) :
    s.rewrite f depth = s.map forget := by
  have hs := h (depth, s) (List.mem_singleton_self _)
  unfold StringValue.rewrite StringValue.map
  split
  · rename_i hb
    rw [hs hb]
  · rfl

theorem Value.rewrite_eq_map {v : Value α} (h : Fixes f (v.strings depth)) :
    v.rewrite f depth = v.map forget := by
  induction v using Value.induct with
  | string s => rw [Value.rewrite, Value.map, StringValue.rewrite_eq_map h]
  | list items i ih =>
    rw [Value.strings, Value.allStrings_eq] at h
    rw [Value.rewrite, Value.map, Value.rewriteAll_eq, Value.mapList_eq,
      List.map_congr_left fun v hv => ih v hv (h.of_mem hv)]
  | object fields i ih =>
    rw [Value.strings, ObjectField.allStrings_eq] at h
    have hfields : ∀ x ∈ fields, ObjectField.rewrite f depth x = x.map forget := by
      intro x hx
      have hx' := h.of_mem hx
      have hv := ih x hx
      obtain ⟨n, v, j⟩ := x
      rw [ObjectField.rewrite, ObjectField.map, show v.rewrite f depth = v.map forget from hv hx']
    rw [Value.rewrite, Value.map, ObjectField.rewriteAll_eq, ObjectField.mapList_eq,
      List.map_congr_left hfields]
  | _ => rfl

theorem Argument.rewrite_eq_map {a : Argument α} (h : Fixes f (a.strings depth)) :
    a.rewrite f depth = a.map forget := by
  rw [Argument.rewrite, Argument.map, Value.rewrite_eq_map h]

theorem arguments_rewrite_eq_map {as : List (Argument α)}
    (h : Fixes f (as.flatMap (Argument.strings depth))) :
    as.map (Argument.rewrite f depth) = as.map (Argument.map forget) :=
  List.map_congr_left fun _ ha => Argument.rewrite_eq_map (h.of_mem ha)

theorem directives_rewrite_eq_map {ds : List (Directive α)}
    (h : Fixes f (ds.flatMap (Directive.strings depth))) :
    ds.map (Directive.rewrite f depth) = ds.map (Directive.map forget) := by
  apply List.map_congr_left
  intro d hd
  rw [Directive.rewrite, Directive.map, arguments_rewrite_eq_map (h.of_mem hd)]

theorem Selection.rewrite_eq_map {s : Selection α} (h : Fixes f (s.strings depth))
    (hset : ∀ set ∈ s.inner?, Fixes f (set.strings depth) →
      set.rewrite f depth = set.map forget) : s.rewrite f depth = s.map forget := by
  cases s with
  | field a n as ds set i =>
    rw [Selection.strings_field, fixes_append, fixes_append] at h
    obtain ⟨has, hds, hs⟩ := h
    have hsets : set.map (SelectionSet.rewrite f depth) = set.map (SelectionSet.map forget) := by
      cases set with
      | none => rfl
      | some set =>
        rw [Option.toList_some, List.flatMap_singleton] at hs
        rw [Option.map_some, hset set rfl hs, Option.map_some]
    rw [Selection.rewrite_field, Selection.map_field, arguments_rewrite_eq_map has,
      directives_rewrite_eq_map hds, hsets]
  | spread s =>
    rw [Selection.rewrite, Selection.map, FragmentSpread.map, directives_rewrite_eq_map h]
  | inlineFragment t ds set i =>
    rw [Selection.strings, fixes_append] at h
    rw [Selection.rewrite, Selection.map, directives_rewrite_eq_map h.1, hset set rfl h.2]

theorem SelectionSet.rewrite_eq_map {set : SelectionSet α} (h : Fixes f (set.strings depth)) :
    set.rewrite f depth = set.map forget := by
  induction set using SelectionSet.induct generalizing depth with
  | mk items i ih =>
    rw [SelectionSet.strings, Selection.allStrings_eq] at h
    rw [SelectionSet.rewrite, SelectionSet.map, Selection.rewriteAll_eq, Selection.mapList_eq,
      List.map_congr_left fun s hs => Selection.rewrite_eq_map (h.of_mem hs) fun set hset =>
        ih s hs set hset]

theorem description_rewrite_eq_map {d : Option (StringValue α)}
    (h : Fixes f (descriptionStrings d)) :
    d.map (StringValue.rewrite f 0) = d.map (StringValue.map forget) := by
  cases d with
  | none => rfl
  | some s => rw [Option.map_some, StringValue.rewrite_eq_map h, Option.map_some]

theorem VariableDefinition.rewrite_eq_map {v : VariableDefinition α} (h : Fixes f v.strings) :
    v.rewrite f = v.map forget := by
  rw [VariableDefinition.strings, fixes_append, fixes_append] at h
  obtain ⟨hdescription, hdefault, hdirectives⟩ := h
  have hd : v.default.map (Value.rewrite f 0) = v.default.map (Value.map forget) := by
    cases hv : v.default with
    | none => rfl
    | some d =>
      rw [hv, Option.toList_some, List.flatMap_singleton] at hdefault
      rw [Option.map_some, Value.rewrite_eq_map hdefault, Option.map_some]
  rw [VariableDefinition.rewrite, VariableDefinition.map, description_rewrite_eq_map hdescription,
    hd, directives_rewrite_eq_map hdirectives]

theorem Definition.rewrite_eq_map {d : Definition α} (h : Fixes f d.strings) :
    d.rewrite f = d.map forget := by
  cases d with
  | operation o =>
    simp only [Definition.strings, Operation.strings, fixes_append] at h
    obtain ⟨hdescription, hvars, hdirectives, hset⟩ := h
    have hvs : o.variableDefinitions.map (VariableDefinition.rewrite f) =
        o.variableDefinitions.map (VariableDefinition.map forget) :=
      List.map_congr_left fun v hv => VariableDefinition.rewrite_eq_map (hvars.of_mem hv)
    rw [Definition.rewrite, Definition.map, Operation.rewrite, Operation.map,
      description_rewrite_eq_map hdescription, hvs, directives_rewrite_eq_map hdirectives,
      SelectionSet.rewrite_eq_map hset]
  | fragment x =>
    simp only [Definition.strings, Fragment.strings, fixes_append] at h
    obtain ⟨hdescription, hdirectives, hset⟩ := h
    rw [Definition.rewrite, Definition.map, Fragment.rewrite, Fragment.map,
      description_rewrite_eq_map hdescription, directives_rewrite_eq_map hdirectives,
      SelectionSet.rewrite_eq_map hset]

/-- A tree whose block strings have the texts that replace them is not changed. -/
theorem Document.rewrite_eq_map {d : Document α} (h : Fixes f d.strings) :
    d.rewrite f = d.map forget := by
  rw [Document.rewrite, Document.map,
    List.map_congr_left fun x hx => Definition.rewrite_eq_map (h.of_mem hx)]

end Fixes

/-! ## The strings of a rewritten tree -/

/-- The strings of the second list are those of the first after rewriting,
wherever they are printed. -/
def Follows (f : Nat → String → String) (before : List (Nat × StringValue α))
    (after : List (Nat × StringValue Unit)) : Prop :=
  after.map Prod.snd = before.map fun p => p.2.rewrite f p.1

section Follows
variable {f : Nat → String → String}

theorem Follows.append {ps qs : List (Nat × StringValue α)} {ps' qs' : List (Nat × StringValue Unit)}
    (hp : Follows f ps ps') (hq : Follows f qs qs') : Follows f (ps ++ qs) (ps' ++ qs') := by
  rw [Follows, List.map_append, List.map_append, hp, hq]

theorem Follows.flatMap {β γ : Type} {xs : List β} {r : β → γ}
    {t : β → List (Nat × StringValue α)} {t' : γ → List (Nat × StringValue Unit)}
    (h : ∀ x ∈ xs, Follows f (t x) (t' (r x))) :
    Follows f (xs.flatMap t) ((xs.map r).flatMap t') := by
  induction xs with
  | nil => rfl
  | cons x xs ih =>
    obtain ⟨hx, hxs⟩ := List.forall_mem_cons.1 h
    exact .append hx (ih hxs)

theorem Follows.option {β γ : Type} {o : Option β} {r : β → γ}
    {t : β → List (Nat × StringValue α)} {t' : γ → List (Nat × StringValue Unit)}
    (h : ∀ x ∈ o, Follows f (t x) (t' (r x))) :
    Follows f (o.toList.flatMap t) ((o.map r).toList.flatMap t') := by
  cases o with
  | none => rfl
  | some x => exact .append (h x rfl) rfl

theorem Value.strings_rewrite (depth later : Nat) (v : Value α) :
    Follows f (v.strings depth) ((v.rewrite f depth).strings later) := by
  induction v using Value.induct with
  | list items i ih =>
    simp only [Value.rewrite, Value.strings, Value.rewriteAll_eq, Value.allStrings_eq]
    exact .flatMap ih
  | object fields i ih =>
    simp only [Value.rewrite, Value.strings, ObjectField.rewriteAll_eq, ObjectField.allStrings_eq]
    refine .flatMap fun x hx => ?_
    obtain ⟨n, v, j⟩ := x
    exact ih _ hx
  | _ => rfl

theorem arguments_strings_rewrite (depth later : Nat) (as : List (Argument α)) :
    Follows f (as.flatMap (Argument.strings depth))
      ((as.map (Argument.rewrite f depth)).flatMap (Argument.strings later)) :=
  .flatMap fun a _ => Value.strings_rewrite depth later a.value

theorem directives_strings_rewrite (depth later : Nat) (ds : List (Directive α)) :
    Follows f (ds.flatMap (Directive.strings depth))
      ((ds.map (Directive.rewrite f depth)).flatMap (Directive.strings later)) :=
  .flatMap fun d _ => arguments_strings_rewrite depth later d.arguments

theorem Selection.strings_rewrite {depth later : Nat} {s : Selection α}
    (hset : ∀ set ∈ s.inner?, Follows f (set.strings depth) ((set.rewrite f depth).strings later)) :
    Follows f (s.strings depth) ((s.rewrite f depth).strings later) := by
  cases s with
  | field a n as ds set i =>
    rw [Selection.strings_field, Selection.rewrite_field, Selection.strings_field]
    exact .append (arguments_strings_rewrite _ _ as)
      (.append (directives_strings_rewrite _ _ ds) (.option hset))
  | spread s => exact directives_strings_rewrite depth later s.directives
  | inlineFragment t ds set i => exact .append (directives_strings_rewrite _ _ ds) (hset set rfl)

theorem SelectionSet.strings_rewrite (depth later : Nat) (set : SelectionSet α) :
    Follows f (set.strings depth) ((set.rewrite f depth).strings later) := by
  induction set using SelectionSet.induct generalizing depth later with
  | mk items i ih =>
    simp only [SelectionSet.rewrite, SelectionSet.strings, Selection.rewriteAll_eq,
      Selection.allStrings_eq]
    exact .flatMap fun s hs => Selection.strings_rewrite fun set hset => ih s hs set hset _ _

theorem description_strings_rewrite (d : Option (StringValue α)) :
    Follows f (descriptionStrings d) (descriptionStrings (d.map (StringValue.rewrite f 0))) := by
  cases d <;> rfl

theorem VariableDefinition.strings_rewrite (v : VariableDefinition α) :
    Follows f v.strings (v.rewrite f).strings :=
  .append (description_strings_rewrite v.description)
    (.append (.option fun d _ => Value.strings_rewrite 0 0 d)
      (directives_strings_rewrite 0 0 v.directives))

theorem Definition.strings_rewrite (d : Definition α) :
    Follows f d.strings (d.rewrite f).strings := by
  cases d with
  | operation o =>
    exact .append (description_strings_rewrite o.description)
      (.append (.flatMap fun v _ => VariableDefinition.strings_rewrite v)
        (.append (directives_strings_rewrite 0 0 o.directives)
          (SelectionSet.strings_rewrite 0 0 o.selections)))
  | fragment x =>
    exact .append (description_strings_rewrite x.description)
      (.append (directives_strings_rewrite 0 0 x.directives)
        (SelectionSet.strings_rewrite 0 0 x.selections))

theorem Document.strings_rewrite (d : Document α) : Follows f d.strings (d.rewrite f).strings :=
  .flatMap fun x _ => Definition.strings_rewrite x

end Follows

end QueryDoc
