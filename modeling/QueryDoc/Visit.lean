import QueryDoc.Visit.Context
import QueryDoc.Visit.Identity

/-!
# Visiting and editing

A visit calls a hook when it enters a node and another when it leaves it, with
the children in between, in the order of their slots. A hook may let the visit
go on, skip the children, remove the node, put another in its place, end the
visit, or fail. After an entering hook has replaced a node, the children of the
replacement are visited.

An edited child is checked as soon as it has been visited: a slot that must hold
a node cannot lose it, and a replacement must be of a kind that the slot admits.
A node is rebuilt, as a new node, exactly when a child was removed or came back
as another node. A visit that a hook ends gives back the root it started from.

Replacements can bring in nodes to visit without end, so a visit is given a
limit on depth. Hooks share a state, which outlives any end of the visit.
-/
namespace QueryDoc

/-- What a hook wants to happen. -/
inductive Action (α : Type) where
  | keep
  /-- Keep the node and leave out its children and the leaving hook. A leaving
  hook that says so keeps the node. -/
  | skip
  | remove
  | replace (t : Tree (Draft α))
  | stop
  | fail (message : String)

/-- What is called at a node. -/
abbrev Hook (σ α : Type) : Type :=
  Context (Numbered α) → Tree (Numbered α) → StateM σ (Action α)

structure Hooks (σ α : Type) where
  enter : Hook σ α
  leave : Hook σ α

/-- The hook that lets the visit go on. -/
def Hook.keep {σ α : Type} : Hook σ α := fun _ _ => pure .keep

/-- The state of the hooks, and the number of the next new node. -/
structure Progress (σ : Type) where
  state : σ
  next : Nat

abbrev Walk (σ β : Type) : Type := ExceptT Stop (StateM (Progress σ)) β

namespace Walk

variable {σ α β : Type}

/-- Calls a hook. -/
def call (m : StateM σ β) : Walk σ β := do
  let p ← get
  let (x, s) := m p.state
  set { p with state := s }
  return x

/-- Gives numbers to the new nodes of a replacement. -/
def adopt (t : Tree (Draft α)) : Walk σ (Tree (Numbered α)) := do
  let p ← get
  let (t, next) := Tree.adopt p.next t
  set { p with next := next }
  return t

/-- A new node in place of `t` with other contents of its slots. -/
def rebuild (t : Tree (Numbered α)) (slots : List (List (Tree (Numbered α)))) :
    Walk σ (Tree (Numbered α)) := do
  let p ← get
  set { p with next := p.next + 1 }
  return .node t.head ⟨p.next, t.info.info⟩ slots

end Walk

/-- A visit with its stacks. -/
abbrev Traversal (σ α β : Type) : Type := Stacked (Numbered α) (Walk σ) β

namespace Traversal
open Stacks (underKey inside below)

variable {σ α : Type}

/-- How a node is visited, given its key and what holds it; none if it is removed. -/
abbrev Step (σ α : Type) : Type :=
  Tree (Numbered α) → Option PathKey → Option (Ancestor (Numbered α)) →
    Traversal σ α (Option (Tree (Numbered α)))

def fail {β : Type} (e : VisitError) : Traversal σ α β := throw (.failed e)

/-- Turns the outcome for a child into what its slot holds then. The flag says
whether anything changed. -/
def settle (slot : Slot) (key : PathKey) (before : Tree (Numbered α)) :
    Option (Tree (Numbered α)) → Traversal σ α (Option (Tree (Numbered α)) × Bool)
  | none => return (none, true)
  | some after =>
    if after.id = before.id then return (some before, false)
    else if slot.category.admits after.kind then return (some after, true)
    else fail (.invalidReplacement key slot.category after.kind)

/-- Visits the child in a slot of `owner`. -/
def child (step : Step σ α) (owner : Tree (Numbered α)) (slot : Slot) (t : Tree (Numbered α)) :
    Traversal σ α (Option (Tree (Numbered α)) × Bool) := do
  let key := .field slot.key
  let after ← underKey key (step t (some key) (some (.node owner)))
  settle slot key t after

/-- Visits a child that `owner` cannot do without. -/
def required (step : Step σ α) (owner : Tree (Numbered α)) (slot : Slot)
    (t : Tree (Numbered α)) : Traversal σ α (Option (Tree (Numbered α)) × Bool) := do
  let (kept, edited) ← child step owner slot t
  if kept.isNone then fail (.removedRequired owner.kind (.field slot.key))
  else return (kept, edited)

/-- Visits what a slot holds that is no list. -/
def single (visitChild : Tree (Numbered α) → Traversal σ α (Option (Tree (Numbered α)) × Bool)) :
    List (Tree (Numbered α)) → Traversal σ α (List (Tree (Numbered α)) × Bool)
  | [] => return ([], false)
  | t :: ts => do
    let (kept, edited) ← visitChild t
    let (rest, edited') ← single visitChild ts
    return (kept.toList ++ rest, edited || edited')

/-- Visits the items of a list from place `i` on, without those that are removed. -/
def items (step : Step σ α) (slot : Slot) (container : Ancestor (Numbered α)) :
    Nat → List (Tree (Numbered α)) → Traversal σ α (List (Tree (Numbered α)) × Bool)
  | _, [] => return ([], false)
  | i, t :: ts => do
    let key := .index i
    let after ← underKey key (step t (some key) (some container))
    let (kept, edited) ← settle slot key t after
    let (rest, edited') ← items step slot container (i + 1) ts
    return (kept.toList ++ rest, edited || edited')

/-- Visits the list in a slot of `owner`. An empty list is not gone into. -/
def list (step : Step σ α) (owner : Tree (Numbered α)) (slot : Slot)
    (ts : List (Tree (Numbered α))) : Traversal σ α (List (Tree (Numbered α)) × Bool) :=
  if ts.isEmpty then return ([], false)
  else underKey (.field slot.key) (inside (.node owner) (items step slot (.list ts) 0 ts))

/-- Visits what is in a slot of `owner`. -/
def inSlot (step : Step σ α) (owner : Tree (Numbered α)) (slot : Slot)
    (ts : List (Tree (Numbered α))) : Traversal σ α (List (Tree (Numbered α)) × Bool) :=
  match slot.arity with
  | .required => single (required step owner slot) ts
  | .optional => single (child step owner slot) ts
  | .many => list step owner slot ts

/-- Visits the slots of `owner`. -/
def slots (step : Step σ α) (owner : Tree (Numbered α)) :
    List (Slot × List (Tree (Numbered α))) →
      Traversal σ α (List (List (Tree (Numbered α))) × Bool)
  | [] => return ([], false)
  | (slot, ts) :: rest => do
    let (kept, edited) ← inSlot step owner slot ts
    let (kept', edited') ← slots step owner rest
    return (kept :: kept', edited || edited')

/-- Visits the children of a node and rebuilds it if any of them changed. -/
def children (step : Step σ α) (t : Tree (Numbered α)) : Traversal σ α (Tree (Numbered α)) := do
  let (contents, edited) ← slots step t t.fields
  if edited then (Walk.rebuild t contents : Walk σ _) else return t

/-- Visits the children of a node that was entered, and leaves it. -/
def finish (hooks : Hooks σ α) (step : Step σ α) : Step σ α := fun t key parent => do
  let t ← below parent (children step t)
  match ← Walk.call (hooks.leave ((← get).context key parent) t) with
  | .keep => return some t
  | .skip => return some t
  | .remove => return none
  | .replace r => return some (← (Walk.adopt r : Walk σ _))
  | .stop => throw .broken
  | .fail message => fail (.callback message)

/-- Visits a node and at most `depth` levels with it. -/
def node (hooks : Hooks σ α) : (depth : Nat) → Step σ α
  | 0, _, _, _ => fail .tooDeep
  | depth + 1, t, key, parent => do
    match ← Walk.call (hooks.enter ((← get).context key parent) t) with
    | .keep => finish hooks (node hooks depth) t key parent
    | .skip => return some t
    | .remove => return none
    | .replace r =>
      finish hooks (node hooks depth) (← (Walk.adopt r : Walk σ _)) key parent
    | .stop => throw .broken
    | .fail message => fail (.callback message)

end Traversal

/-- The walk of a visit from the root on; none if the root is removed. -/
def Hooks.walk {σ α : Type} (hooks : Hooks σ α) (depth : Nat) (root : Tree (Numbered α)) :
    Walk σ (Option (Tree (Numbered α))) :=
  (Traversal.node hooks depth root none none).run' .empty

variable {σ α : Type}

/-- Visits a tree of which at most `depth` levels are looked at. `next` is a
number greater than those of the tree. -/
def visit (hooks : Hooks σ α) (depth next : Nat) (root : Tree (Numbered α)) (state : σ) :
    Except VisitError (Tree (Numbered α)) × Progress σ :=
  match (hooks.walk depth root).run ⟨state, next⟩ with
  | (.ok (some t), p) => (.ok t, p)
  | (.ok none, p) => (.error .removedRoot, p)
  | (.error .broken, p) => (.ok root, p)
  | (.error (.failed e), p) => (.error e, p)

/-- Hooks for all nodes and hooks for single kinds. A kind with a hook of its own
uses its own hooks only. -/
structure HookTable (σ α : Type) where
  enter : Option (Hook σ α)
  leave : Option (Hook σ α)
  /-- The hooks of a kind that has any. -/
  ofKind : Kind → Option (Option (Hook σ α) × Option (Hook σ α))

namespace HookTable

def empty : HookTable σ α := ⟨none, none, fun _ => none⟩

def onEnter (t : HookTable σ α) (h : Hook σ α) : HookTable σ α := { t with enter := some h }

def onLeave (t : HookTable σ α) (h : Hook σ α) : HookTable σ α := { t with leave := some h }

def onEnterKind (t : HookTable σ α) (k : Kind) (h : Hook σ α) : HookTable σ α :=
  { t with ofKind := fun k' =>
      if k' = k then some (some h, (t.ofKind k).bind Prod.snd) else t.ofKind k' }

def onLeaveKind (t : HookTable σ α) (k : Kind) (h : Hook σ α) : HookTable σ α :=
  { t with ofKind := fun k' =>
      if k' = k then some ((t.ofKind k).bind Prod.fst, some h) else t.ofKind k' }

/-- The hooks that the table stands for. -/
def hooks (t : HookTable σ α) : Hooks σ α where
  enter := fun c n =>
    match t.ofKind n.kind with
    | some own => (own.1.getD Hook.keep) c n
    | none => (t.enter.getD Hook.keep) c n
  leave := fun c n =>
    match t.ofKind n.kind with
    | some own => (own.2.getD Hook.keep) c n
    | none => (t.leave.getD Hook.keep) c n

end HookTable

end QueryDoc
