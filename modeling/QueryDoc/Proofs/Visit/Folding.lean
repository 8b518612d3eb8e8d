import QueryDoc.Visit.Reduce
import QueryDoc.Proofs.Tree.Shape
import QueryDoc.Proofs.Visit.Passing

/-!
# A reduction, its contexts handed down

A reduction reads the fields of a node off a table of its own and keeps stacks of its
own. Its table names the slots of every kind, in their order, and tells the lists apart,
and its stacks hold what a visit hands down. So it can be told by the slots of the nodes
and their contexts, an empty list included, which a visit does not go into.
-/
namespace QueryDoc

namespace Reduction

variable {σ α ρ : Type}

/-- The entry for a slot, given the values of the nodes in it. -/
def entry (slot : Slot) (values : List ρ) : List (String × SlotValue ρ) :=
  match slot.arity with
  | .many => [(slot.key, .list values)]
  | _ => values.map fun v => (slot.key, .one v)

mutual

/-- The value of a node; none if it is left out. -/
def node (r : Reducer σ α ρ) (c : Context α) : Tree α → Walk σ (Option ρ)
  | .node head info contents => do
    let t : Tree α := .node head info contents
    match ← (r.enter c t : StateM σ (ReduceAction ρ)) with
    | .descend =>
      let fields ← slots r c t head.kind.slots contents
      match ← (r.leave c t ⟨fields⟩ : StateM σ (Except String ρ)) with
      | .ok v => return some v
      | .error message => throw (.failed (.callback message))
    | .use v => return some v
    | .omit => return none
    | .stop => throw .broken
    | .fail message => throw (.failed (.callback message))

/-- The entries for the slots of `owner`. -/
def slots (r : Reducer σ α ρ) (c : Context α) (owner : Tree α) (rules : List Slot) :
    List (List (Tree α)) → Walk σ (List (String × SlotValue ρ))
  | [] => return []
  | ts :: rest =>
    match rules with
    | [] => return []
    | slot :: rules => do
      let values ← items r (c.inSlot owner slot ts) 0 ts
      return entry slot values ++ (← slots r c owner rules rest)

/-- The values of the nodes of a slot from place `i` on. -/
def items (r : Reducer σ α ρ) (place : Nat → Context α) (i : Nat) :
    List (Tree α) → Walk σ (List ρ)
  | [] => return []
  | t :: ts => do
    let v ← node r (place i) t
    return v.toList ++ (← items r place (i + 1) ts)

end

end Reduction

/-! ## Two tables -/

/-- A slot as a reduction takes it. -/
def Slot.childField (s : Slot) : ChildField :=
  match s.arity with
  | .many => .list s.key
  | _ => .one s.key

/-- The fields of a reduction are the slots of a visit. -/
theorem Kind.childFields_eq (k : Kind) : k.childFields = k.slots.map Slot.childField := by
  cases k <;> rfl

/-! ## Two ways to keep contexts -/

namespace Reducing
variable {σ α ρ : Type} {r : Reducer σ α ρ}

/-- Both ways to reduce the node agree, wherever it stands. -/
def Agrees (r : Reducer σ α ρ) (t : Tree α) : Prop :=
  ∀ s key parent, Restores s (node r key parent t) (Reduction.node r (s.context key parent) t)

section Children
variable (c : Context α) (owner : Tree α)

theorem single_restores {slot : Slot} (h : slot.arity ≠ .many) (all : List (Tree α))
    {ts : List (Tree α)} (agrees : ∀ t ∈ ts, Agrees r t) (i : Nat) :
    Restores c.inner (single r owner slot.key ts)
      (Reduction.entry slot <$> Reduction.items r (c.inSlot owner slot all) i ts) := by
  have entry : ∀ vs : List ρ, Reduction.entry slot vs = vs.map fun v => (slot.key, .one v) := by
    intro vs
    rw [Reduction.entry]
    split
    · exact absurd ‹_› h
    · rfl
  induction ts generalizing i with
  | nil =>
    rw [single, Reduction.items, map_pure, entry]
    exact .pure []
  | cons t ts ih =>
    rw [List.forall_mem_cons] at agrees
    rw [single, Reduction.items, c.inSlot_of_ne_many owner all i h, map_bind]
    refine (agrees.1 _ _ _).underKey.bind fun v => ?_
    have rest : ((Reduction.entry slot <$> do
          return v.toList ++ (← Reduction.items r (c.inSlot owner slot all) (i + 1) ts)) :
            Reduction.Walk σ _) =
        (do
          let entries ← Reduction.entry slot <$>
            Reduction.items r (c.inSlot owner slot all) (i + 1) ts
          return (v.toList.map fun w => (slot.key, .one w)) ++ entries) := by
      simp only [map_bind, map_pure, bind_map_left, entry, List.map_append]
    rw [rest]
    exact (ih agrees.2 (i + 1)).bind fun entries => .pure _

theorem items_restores {slot : Slot} (h : slot.arity = .many) (all : List (Tree α))
    {ts : List (Tree α)} (agrees : ∀ t ∈ ts, Agrees r t) (i : Nat) :
    Restores ((c.inner.push (.field slot.key)).pushAncestor (.node owner))
      (items r (.list all) i ts) (Reduction.items r (c.inSlot owner slot all) i ts) := by
  induction ts generalizing i with
  | nil =>
    rw [items, Reduction.items]
    exact .pure []
  | cons t ts ih =>
    rw [List.forall_mem_cons] at agrees
    rw [items, Reduction.items, c.inSlot_of_many owner all i h]
    refine (agrees.1 _ _ _).underKey.bind fun v => ?_
    exact (ih agrees.2 (i + 1)).bind fun vs => .pure _

theorem fields_restores (slots : List Slot) {contents : List (List (Tree α))}
    (agrees : ∀ ts ∈ contents, ∀ t ∈ ts, Agrees r t) :
    Restores c.inner (fields r owner (slots.map Slot.childField) contents)
      (Reduction.slots r c owner slots contents) := by
  induction contents generalizing slots with
  | nil =>
    rw [fields, Reduction.slots]
    exact .pure []
  | cons ts contents ih =>
    rw [List.forall_mem_cons] at agrees
    cases slots with
    | nil =>
      rw [List.map_nil, fields, Reduction.slots]
      exact .pure []
    | cons slot slots =>
      have rest := ih slots agrees.2
      rw [List.map_cons, Reduction.slots]
      by_cases h : slot.arity = .many
      · have kept : slot.childField = .list slot.key := by simp [Slot.childField, h]
        have entry : ∀ vs : List ρ, Reduction.entry slot vs = [(slot.key, .list vs)] := by
          simp [Reduction.entry, h]
        rw [kept, fields]
        simp only [entry, List.singleton_append]
        refine (items_restores c owner h ts agrees.1 0).inside.underKey.bind fun vs => ?_
        exact rest.bind fun entries => .pure _
      · have kept : slot.childField = .one slot.key := by
          rw [Slot.childField]
          split
          · exact absurd ‹_› h
          · rfl
        rw [kept, fields, ← bind_map_left (Reduction.entry slot)
          (Reduction.items r (c.inSlot owner slot ts) 0 ts) fun here =>
            (do return here ++ (← Reduction.slots r c owner slots contents))]
        refine (single_restores c owner h ts agrees.1 0).bind fun here => ?_
        exact rest.bind fun entries => .pure _

end Children

/-- **A reduction tells its hooks where they are called.** By induction on the tree. -/
theorem node_agrees (r : Reducer σ α ρ) (t : Tree α) : Agrees r t := by
  induction t using Tree.induct with
  | node head info contents ih =>
    intro s key parent
    rw [node, Reduction.node]
    refine .get_bind ((Restores.lift _).bind fun action => ?_)
    cases action with
    | descend =>
      have children := fields_restores (s.context key parent) (.node head info contents)
        head.kind.slots ih
      rw [← Kind.childFields_eq] at children
      refine children.below.bind fun fields => .get_bind ((Restores.lift _).bind fun answer => ?_)
      cases answer with
      | ok v => exact .pure _
      | error message => rfl
    | use v => exact .pure _
    | «omit» => exact .pure _
    | stop => rfl
    | fail message => rfl

end Reducing

/-- A reduction with stacks goes as the one that hands contexts down. -/
theorem Reducer.walk_eq {σ α ρ : Type} (r : Reducer σ α ρ) (root : Tree α) :
    r.walk root = Reduction.node r .root root :=
  (Reducing.node_agrees r root .empty none none).run'_eq

end QueryDoc
