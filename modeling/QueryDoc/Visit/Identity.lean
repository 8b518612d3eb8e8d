import QueryDoc.Tree

/-!
# Identity of nodes

Two nodes can be equal without being the same. To tell an edited tree from one
that was left alone, every node of a tree that is visited has a number of its
own. A node that a hook brings in may be a node that exists already, under its
number, or a new one, which is given the next free number.
-/
namespace QueryDoc

/-- The information of a node that has a number. -/
structure Numbered (α : Type) where
  id : Nat
  info : α
deriving DecidableEq, Repr

/-- The information of a node that has a number or is still to be given one. -/
structure Draft (α : Type) where
  id : Option Nat
  info : α
deriving DecidableEq, Repr

namespace Tree

variable {α : Type}

def id (t : Tree (Numbered α)) : Nat := t.info.id

/-- The tree without its numbers. -/
def plain (t : Tree (Numbered α)) : Tree α := t.map Numbered.info

/-- The very same nodes. -/
def asDraft (t : Tree (Numbered α)) : Tree (Draft α) := t.map fun i => ⟨some i.id, i.info⟩

/-- New nodes throughout. -/
def fresh (t : Tree α) : Tree (Draft α) := t.map fun i => ⟨none, i⟩

/-- A new node with the same children. -/
def copy (t : Tree (Numbered α)) : Tree (Draft α) :=
  match t.asDraft with
  | .node head info slots => .node head ⟨none, info.info⟩ slots

mutual

/-- Gives numbers from `next` on to the nodes that have none; the second result
is the first number still free. -/
def adopt (next : Nat) : Tree (Draft α) → Tree (Numbered α) × Nat
  | .node head info slots =>
    let own := info.id.getD next
    let free := if info.id.isSome then next else next + 1
    let r := adoptSlots free slots
    (.node head ⟨own, info.info⟩ r.1, r.2)

def adoptSlots (next : Nat) : List (List (Tree (Draft α))) → List (List (Tree (Numbered α))) × Nat
  | [] => ([], next)
  | ts :: rest =>
    let r := adoptList next ts
    let r' := adoptSlots r.2 rest
    (r.1 :: r'.1, r'.2)

def adoptList (next : Nat) : List (Tree (Draft α)) → List (Tree (Numbered α)) × Nat
  | [] => ([], next)
  | t :: ts =>
    let r := adopt next t
    let r' := adoptList r.2 ts
    (r.1 :: r'.1, r'.2)

end

/-- Numbers all nodes from zero on; the second result is the first free number. -/
def numbered (t : Tree α) : Tree (Numbered α) × Nat := adopt 0 t.fresh

/-- The numbers of all nodes of a tree. -/
def ids (t : Tree (Numbered α)) : List Nat := t.nodes.map fun n => n.2.id

end Tree

end QueryDoc
