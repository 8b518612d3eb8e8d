import QueryDoc.Proofs.Syntax.Induction
import QueryDoc.Tree.Node
import Mathlib.Data.List.Forall2

/-!
# The shape of uniform trees

Trees are nested through two layers of lists; an induction principle hides them,
and what is defined on all three layers is said with the functions on lists. The
table of slots says what a node may hold. The tree of every node of the syntax
keeps to it.
-/
namespace QueryDoc

variable {α β γ : Type}

namespace Tree

/-- A property of trees, given that it passes from the children to the whole. -/
@[elab_as_elim]
theorem induct {motive : Tree α → Prop}
    (node : ∀ head info slots, (∀ ts ∈ slots, ∀ t ∈ ts, motive t) →
      motive (.node head info slots)) : ∀ t, motive t :=
  @Tree.rec α motive (fun slots => ∀ ts ∈ slots, ∀ t ∈ ts, motive t) (fun ts => ∀ t ∈ ts, motive t)
    node (fun _ h => absurd h List.not_mem_nil) (fun _ _ h hs => List.forall_mem_cons.2 ⟨h, hs⟩)
    (fun _ h => absurd h List.not_mem_nil) (fun _ _ h hs => List.forall_mem_cons.2 ⟨h, hs⟩)

/-! ## Maps -/

@[simp] theorem mapList_eq (f : α → β) (ts : List (Tree α)) : mapList f ts = ts.map (map f) := by
  induction ts with
  | nil => rfl
  | cons t ts ih => simp only [mapList, ih, List.map_cons]

@[simp] theorem mapSlots_eq (f : α → β) (slots : List (List (Tree α))) :
    mapSlots f slots = slots.map (List.map (map f)) := by
  induction slots with
  | nil => rfl
  | cons ts rest ih => simp only [mapSlots, mapList_eq, ih, List.map_cons]

@[simp] theorem map_node (f : α → β) (head : Head) (info : α) (slots : List (List (Tree α))) :
    (node head info slots).map f = node head (f info) (slots.map (List.map (map f))) := by
  rw [map, mapSlots_eq]

@[simp] theorem head_map (f : α → β) (t : Tree α) : (t.map f).head = t.head := by
  cases t; rfl

@[simp] theorem info_map (f : α → β) (t : Tree α) : (t.map f).info = f t.info := by
  cases t; rfl

@[simp] theorem slots_map (f : α → β) (t : Tree α) :
    (t.map f).slots = t.slots.map (List.map (map f)) := by
  cases t; simp only [map_node, slots]

@[simp] theorem kind_map (f : α → β) (t : Tree α) : (t.map f).kind = t.kind := by
  simp only [kind, head_map]

theorem fields_map (f : α → β) (t : Tree α) :
    (t.map f).fields = t.fields.map fun s => (s.1, s.2.map (map f)) := by
  rw [fields, fields, kind_map, slots_map, List.zip_map_right]; rfl

@[simp] theorem map_map (f : α → β) (g : β → γ) (t : Tree α) :
    (t.map f).map g = t.map fun a => g (f a) := by
  induction t using Tree.induct with
  | node head info slots ih =>
    rw [map_node, map_node, map_node, List.map_map]
    congr 1
    refine List.map_congr_left fun ts hts => ?_
    rw [Function.comp_apply, List.map_map]
    exact List.map_congr_left fun t ht => ih ts hts t ht

@[simp] theorem map_id (t : Tree α) : (t.map fun a => a) = t := by
  induction t using Tree.induct with
  | node head info slots ih =>
    rw [map_node]
    congr 1
    refine (List.map_congr_left fun ts hts => ?_).trans (List.map_id slots)
    exact (List.map_congr_left fun t ht => ih ts hts t ht).trans (List.map_id ts)

end Tree

/-! ## What a slot may hold -/

/-- The nodes in a slot are as many as its arity says, and of kinds it admits. -/
def Slot.Holds (s : Slot) (ts : List (Tree α)) : Prop :=
  (match s.arity with
    | .required => ts.length = 1
    | .optional => ts.length ≤ 1
    | .many => True) ∧
  ∀ t ∈ ts, s.category.admits t.kind

/-- Every slot of the node holds what it may hold. -/
def Tree.Fits (t : Tree α) : Prop := List.Forall₂ Slot.Holds t.kind.slots t.slots

@[simp] theorem Slot.holds_map (s : Slot) (f : α → β) (ts : List (Tree α)) :
    s.Holds (ts.map (Tree.map f)) ↔ s.Holds ts := by
  simp only [Slot.Holds, List.length_map, List.forall_mem_map, Tree.kind_map]

@[simp] theorem Tree.fits_map (f : α → β) (t : Tree α) : (t.map f).Fits ↔ t.Fits := by
  simp only [Tree.Fits, Tree.kind_map, Tree.slots_map, List.forall₂_map_right_iff,
    Slot.holds_map]

namespace Tree.Fits

variable {t : Tree α}

theorem fields_fst (h : t.Fits) : t.fields.map Prod.fst = t.kind.slots :=
  List.map_fst_zip (Nat.le_of_eq h.length_eq)

theorem fields_snd (h : t.Fits) : t.fields.map Prod.snd = t.slots :=
  List.map_snd_zip (Nat.le_of_eq h.length_eq.symm)

theorem fields_holds (h : t.Fits) : ∀ f ∈ t.fields, f.1.Holds f.2 :=
  fun _ hf => (List.forall₂_iff_zip.1 h).2 hf

end Tree.Fits

/-- Every node of the tree holds in its slots what they may hold. -/
inductive Tree.WellFormed : Tree α → Prop where
  | node {head : Head} {info : α} {slots : List (List (Tree α))}
    (fits : (Tree.node head info slots).Fits) (inner : ∀ ts ∈ slots, ∀ t ∈ ts, t.WellFormed) :
    (Tree.node head info slots).WellFormed

namespace Tree.WellFormed

theorem fits {t : Tree α} (h : t.WellFormed) : t.Fits := by
  cases h with
  | node fits _ => exact fits

theorem inner {t : Tree α} (h : t.WellFormed) : ∀ ts ∈ t.slots, ∀ u ∈ ts, u.WellFormed := by
  cases h with
  | node _ inner => exact inner

end Tree.WellFormed

@[simp] theorem Tree.wellFormed_map (f : α → β) (t : Tree α) :
    (t.map f).WellFormed ↔ t.WellFormed := by
  induction t using Tree.induct with
  | node head info slots ih =>
    have fits := Tree.fits_map f (.node head info slots)
    rw [map_node] at fits ⊢
    constructor
    · intro h
      refine .node (fits.1 h.fits) fun ts hts t ht => ?_
      exact (ih ts hts t ht).1 (h.inner _ (List.mem_map_of_mem hts) _ (List.mem_map_of_mem ht))
    · intro h
      refine .node (fits.2 h.fits) ?_
      simp only [List.forall_mem_map]
      exact fun ts hts t ht => (ih ts hts t ht).2 (h.inner ts hts t ht)

namespace Slot

/-- A node that the slot admits. -/
theorem holds_one {s : Slot} {t : Tree α} (h : s.category.admits t.kind) : s.Holds [t] := by
  unfold Slot.Holds
  cases s.arity <;> simp [h]

/-- A node that may be missing. -/
theorem holds_option {s : Slot} (optional : s.arity = .optional) {f : β → Tree α}
    (h : ∀ b, s.category.admits (f b).kind) (o : Option β) : s.Holds (o.map f).toList := by
  unfold Slot.Holds
  rw [optional]
  cases o <;> simp [h]

/-- A list of nodes that the slot admits. -/
theorem holds_list {s : Slot} (many : s.arity = .many) {f : β → Tree α}
    (h : ∀ b, s.category.admits (f b).kind) (bs : List β) : s.Holds (bs.map f) := by
  unfold Slot.Holds
  rw [many]
  simp [h]

end Slot

/-! ## Trees of nodes -/

@[simp] theorem Value.toTrees_eq (vs : List (Value α)) : toTrees vs = vs.map toTree := by
  induction vs with
  | nil => rfl
  | cons v vs ih => simp only [toTrees, ih, List.map_cons]

@[simp] theorem ObjectField.toTrees_eq (fs : List (ObjectField α)) :
    toTrees fs = fs.map toTree := by
  induction fs with
  | nil => rfl
  | cons f fs ih => simp only [toTrees, ih, List.map_cons]

@[simp] theorem Selection.toTrees_eq (ss : List (Selection α)) : toTrees ss = ss.map toTree := by
  induction ss with
  | nil => rfl
  | cons s ss ih => simp only [toTrees, ih, List.map_cons]

/-- A field has a slot for its selection set, with the set or without. -/
theorem Selection.toTree_field (a : Option (Name α)) (n : Name α) (as : List (Argument α))
    (ds : List (Directive α)) (set : Option (SelectionSet α)) (i : α) :
    (Selection.field a n as ds set i).toTree =
      .node .field i [(a.map Name.toTree).toList, [n.toTree], as.map Argument.toTree,
        ds.map Directive.toTree, (set.map SelectionSet.toTree).toList] := by
  cases set <;> rfl

theorem Value.admits_kind (v : Value α) : Category.value.admits v.toTree.kind := by
  cases v <;> rfl

theorem NullableType.admits_kind (t : NullableType α) :
    Category.nullableType.admits t.toTree.kind := by
  cases t <;> rfl

theorem TypeRef.admits_kind (t : TypeRef α) : Category.type.admits t.toTree.kind := by
  cases t with
  | nullable t => cases t <;> rfl
  | nonNull t info => rfl

theorem Selection.admits_kind (s : Selection α) : Category.selection.admits s.toTree.kind := by
  cases s with
  | field a n as ds set i => rw [toTree_field]; rfl
  | spread s => rfl
  | inlineFragment c ds set i => rfl

theorem Definition.admits_kind (d : Definition α) :
    Category.definition.admits d.toTree.kind := by
  cases d <;> rfl

namespace Tree

/-- A node of a kind that has no slots. -/
theorem WellFormed.leaf {head : Head} {info : α} (h : head.kind.slots = []) :
    (Tree.node head info []).WellFormed :=
  .node (by rw [Fits, kind, Tree.head, h]; exact .nil) fun _ h => absurd h List.not_mem_nil

end Tree

theorem Name.wellFormed_toTree (n : Name α) : n.toTree.WellFormed := .leaf rfl

theorem StringValue.wellFormed_toTree (s : StringValue α) : s.toTree.WellFormed := .leaf rfl

/-- All nodes of a list are well formed if `f` makes such. -/
theorem Tree.WellFormed.of_map {f : β → Tree α} {bs : List β} (h : ∀ b ∈ bs, (f b).WellFormed) :
    ∀ t ∈ bs.map f, t.WellFormed := List.forall_mem_map.2 h

theorem Tree.WellFormed.of_option {f : β → Tree α} {o : Option β}
    (h : ∀ b ∈ o, (f b).WellFormed) : ∀ t ∈ (o.map f).toList, t.WellFormed := by
  cases o with
  | none => simp
  | some b => simpa using h b rfl

theorem Variable.wellFormed_toTree (v : Variable α) : v.toTree.WellFormed :=
  .node (.cons (Slot.holds_one rfl) .nil) (by simpa using v.name.wellFormed_toTree)

theorem Value.wellFormed_toTree (v : Value α) : v.toTree.WellFormed := by
  induction v using Value.induct with
  | var v => exact v.wellFormed_toTree
  | int text i => exact .leaf rfl
  | float text i => exact .leaf rfl
  | string s => exact s.wellFormed_toTree
  | boolean b i => exact .leaf rfl
  | null i => exact .leaf rfl
  | enum name i => exact .leaf rfl
  | list items i ih =>
    rw [toTree, toTrees_eq]
    exact .node (.cons (Slot.holds_list rfl admits_kind _) .nil) (by simpa using ih)
  | object fields i ih =>
    rw [toTree, ObjectField.toTrees_eq]
    refine .node (.cons (Slot.holds_list rfl (fun f => by cases f; rfl) _) .nil) ?_
    simp only [List.forall_mem_singleton]
    refine Tree.WellFormed.of_map fun f hf => ?_
    obtain ⟨name, value, j⟩ := f
    have value' : value.toTree.WellFormed := ih _ hf
    exact .node (.cons (Slot.holds_one rfl) (.cons (Slot.holds_one value.admits_kind) .nil))
      (by simp [name.wellFormed_toTree, value'])

theorem ObjectField.wellFormed_toTree (f : ObjectField α) : f.toTree.WellFormed := by
  obtain ⟨name, value, i⟩ := f
  exact .node (.cons (Slot.holds_one rfl) (.cons (Slot.holds_one value.admits_kind) .nil))
    (by simpa [name.wellFormed_toTree] using value.wellFormed_toTree)

theorem NamedType.wellFormed_toTree (t : NamedType α) : t.toTree.WellFormed :=
  .node (.cons (Slot.holds_one rfl) .nil) (by simpa using t.name.wellFormed_toTree)

mutual

theorem TypeRef.wellFormed_toTree : (t : TypeRef α) → t.toTree.WellFormed
  | .nullable t => t.wellFormed_toTree
  | .nonNull t _ =>
    .node (.cons (Slot.holds_one t.admits_kind) .nil) (by simpa using t.wellFormed_toTree)

theorem NullableType.wellFormed_toTree : (t : NullableType α) → t.toTree.WellFormed
  | .named t => t.wellFormed_toTree
  | .list item _ =>
    .node (.cons (Slot.holds_one item.admits_kind) .nil) (by simpa using item.wellFormed_toTree)

end

theorem Argument.wellFormed_toTree (a : Argument α) : a.toTree.WellFormed :=
  .node (.cons (Slot.holds_one rfl) (.cons (Slot.holds_one a.value.admits_kind) .nil))
    (by simp [a.name.wellFormed_toTree, a.value.wellFormed_toTree])

theorem Directive.wellFormed_toTree (d : Directive α) : d.toTree.WellFormed :=
  .node (.cons (Slot.holds_one rfl) (.cons (Slot.holds_list rfl (fun _ => rfl) _) .nil))
    (by simp [d.name.wellFormed_toTree, Argument.wellFormed_toTree])

theorem FragmentSpread.wellFormed_toTree (s : FragmentSpread α) : s.toTree.WellFormed :=
  .node (.cons (Slot.holds_one rfl) (.cons (Slot.holds_list rfl (fun _ => rfl) _) .nil))
    (by simp [s.name.wellFormed_toTree, Directive.wellFormed_toTree])

theorem SelectionSet.kind_toTree (set : SelectionSet α) : set.toTree.kind = .selectionSet := by
  cases set; rfl

/-- A selection is well formed if the selection set in it is. -/
theorem Selection.wellFormed_of_inner {s : Selection α}
    (inner : ∀ set ∈ s.inner?, set.toTree.WellFormed) : s.toTree.WellFormed := by
  cases s with
  | field a n as ds set i =>
    rw [toTree_field]
    refine .node (.cons (Slot.holds_option rfl (fun _ => rfl) _) <| .cons (Slot.holds_one rfl) <|
      .cons (Slot.holds_list rfl (fun _ => rfl) _) <|
      .cons (Slot.holds_list rfl (fun _ => rfl) _) <|
      .cons (Slot.holds_option rfl (fun set => set.kind_toTree ▸ rfl) _) .nil) ?_
    simp only [List.forall_mem_cons, List.not_mem_nil, false_implies, implies_true, and_true]
    exact ⟨.of_option fun a _ => a.wellFormed_toTree, n.wellFormed_toTree,
      .of_map fun a _ => a.wellFormed_toTree, .of_map fun d _ => d.wellFormed_toTree,
      .of_option inner⟩
  | spread s => exact s.wellFormed_toTree
  | inlineFragment c ds set i =>
    refine .node (.cons (Slot.holds_option rfl (fun _ => rfl) _) <|
      .cons (Slot.holds_list rfl (fun _ => rfl) _) <|
      .cons (Slot.holds_one (set.kind_toTree ▸ rfl)) .nil) ?_
    simp only [List.forall_mem_cons, List.not_mem_nil, false_implies, implies_true, and_true]
    exact ⟨.of_option fun c _ => c.wellFormed_toTree, .of_map fun d _ => d.wellFormed_toTree,
      inner set rfl⟩

theorem SelectionSet.wellFormed_toTree (set : SelectionSet α) : set.toTree.WellFormed := by
  induction set using SelectionSet.induct with
  | mk items i ih =>
    rw [toTree, Selection.toTrees_eq]
    exact .node (.cons (Slot.holds_list rfl Selection.admits_kind _) .nil)
      (by simpa using fun s hs => Selection.wellFormed_of_inner (ih s hs))

theorem Selection.wellFormed_toTree (s : Selection α) : s.toTree.WellFormed :=
  wellFormed_of_inner fun set _ => set.wellFormed_toTree

theorem VariableDefinition.wellFormed_toTree (v : VariableDefinition α) :
    v.toTree.WellFormed := by
  refine .node (.cons (Slot.holds_option rfl (fun _ => rfl) _) <| .cons (Slot.holds_one rfl) <|
    .cons (Slot.holds_one v.type.admits_kind) <|
    .cons (Slot.holds_option rfl Value.admits_kind _) <|
    .cons (Slot.holds_list rfl (fun _ => rfl) _) .nil) ?_
  simp only [List.forall_mem_cons, List.not_mem_nil, false_implies, implies_true, and_true]
  exact ⟨.of_option fun s _ => s.wellFormed_toTree, v.var.wellFormed_toTree,
    v.type.wellFormed_toTree, .of_option fun x _ => x.wellFormed_toTree,
    .of_map fun d _ => d.wellFormed_toTree⟩

theorem Operation.wellFormed_toTree (o : Operation α) : o.toTree.WellFormed := by
  refine .node (.cons (Slot.holds_option rfl (fun _ => rfl) _) <|
    .cons (Slot.holds_option rfl (fun _ => rfl) _) <|
    .cons (Slot.holds_list rfl (fun _ => rfl) _) <|
    .cons (Slot.holds_list rfl (fun _ => rfl) _) <|
    .cons (Slot.holds_one (o.selections.kind_toTree ▸ rfl)) .nil) ?_
  simp only [List.forall_mem_cons, List.not_mem_nil, false_implies, implies_true, and_true]
  exact ⟨.of_option fun s _ => s.wellFormed_toTree, .of_option fun n _ => n.wellFormed_toTree,
    .of_map fun v _ => v.wellFormed_toTree, .of_map fun d _ => d.wellFormed_toTree,
    o.selections.wellFormed_toTree⟩

theorem Fragment.wellFormed_toTree (f : Fragment α) : f.toTree.WellFormed := by
  refine .node (.cons (Slot.holds_option rfl (fun _ => rfl) _) <| .cons (Slot.holds_one rfl) <|
    .cons (Slot.holds_one rfl) <| .cons (Slot.holds_list rfl (fun _ => rfl) _) <|
    .cons (Slot.holds_one (f.selections.kind_toTree ▸ rfl)) .nil) ?_
  simp only [List.forall_mem_cons, List.not_mem_nil, false_implies, implies_true, and_true]
  exact ⟨.of_option fun s _ => s.wellFormed_toTree, f.name.wellFormed_toTree,
    f.typeCondition.wellFormed_toTree, .of_map fun d _ => d.wellFormed_toTree,
    f.selections.wellFormed_toTree⟩

theorem Definition.wellFormed_toTree (d : Definition α) : d.toTree.WellFormed := by
  cases d with
  | operation o => exact o.wellFormed_toTree
  | fragment f => exact f.wellFormed_toTree

theorem Document.wellFormed_toTree (d : Document α) : d.toTree.WellFormed :=
  .node (.cons (Slot.holds_list rfl Definition.admits_kind _) .nil)
    (by simp [Definition.wellFormed_toTree])

/-- The tree of a node keeps to the table of slots throughout. -/
theorem Node.wellFormed_toTree (n : Node α) : n.toTree.WellFormed := by
  cases n with
  | name n => exact n.wellFormed_toTree
  | document d => exact d.wellFormed_toTree
  | definition d => exact d.wellFormed_toTree
  | variableDefinition v => exact v.wellFormed_toTree
  | selectionSet s => exact s.wellFormed_toTree
  | selection s => exact s.wellFormed_toTree
  | argument a => exact a.wellFormed_toTree
  | value v => exact v.wellFormed_toTree
  | objectField f => exact f.wellFormed_toTree
  | directive d => exact d.wellFormed_toTree
  | type t => exact t.wellFormed_toTree

end QueryDoc
