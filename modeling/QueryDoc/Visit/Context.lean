import QueryDoc.Tree

/-!
# Where a hook is called

Walks tell their hooks where a node stands: the key under which its container
holds it, the container, the path from the root, and the containers above. A
container is a node, or the list in one of its slots. For the root there is no
key and no container, and path and ancestors are empty. Below the root the path
ends with the key, and there is one ancestor less than the path has steps.

A walk keeps path and containers on two stacks. It pushes the key before it goes
to a node and what holds the node before it goes to its children, and takes them
off on the way back. The items of a list stand one level deeper than the child in
any other slot: their list is under the key of the slot, inside the node.

A walk that cannot go on says why. An error may come from a hook, or from an
edit that would leave a tree that is no syntax.
-/
namespace QueryDoc

/-- What holds a node: a node, or a list in one of its slots. -/
inductive Ancestor (α : Type) where
  | node (t : Tree α)
  | list (ts : List (Tree α))

structure Context (α : Type) where
  key : Option PathKey
  parent : Option (Ancestor α)
  path : List PathKey
  ancestors : List (Ancestor α)

/-- What a walk keeps while it goes up and down a tree: the path to where it is,
and the containers that it has gone through. Both grow and shrink at the end. -/
structure Stacks (α : Type) where
  path : List PathKey
  ancestors : List (Ancestor α)

/-- A walk that keeps its stacks beside what else it does. -/
abbrev Stacked (α : Type) (m : Type → Type) (β : Type) : Type := StateT (Stacks α) m β

namespace Stacks

variable {α β : Type} {m : Type → Type} [Monad m]

def empty : Stacks α := ⟨[], []⟩

def push (key : PathKey) (s : Stacks α) : Stacks α := { s with path := s.path ++ [key] }

def pop (s : Stacks α) : Stacks α := { s with path := s.path.dropLast }

def pushAncestor (a : Ancestor α) (s : Stacks α) : Stacks α :=
  { s with ancestors := s.ancestors ++ [a] }

def popAncestor (s : Stacks α) : Stacks α := { s with ancestors := s.ancestors.dropLast }

/-- Where the node stands that a walk is at, given its key and what holds it. -/
def context (s : Stacks α) (key : Option PathKey) (parent : Option (Ancestor α)) : Context α :=
  ⟨key, parent, s.path, s.ancestors⟩

/-- Goes on with the key on the path. A walk that ends early leaves it there. -/
def underKey (key : PathKey) (walk : Stacked α m β) : Stacked α m β := do
  modify (push key)
  let x ← walk
  modify pop
  return x

/-- Goes on inside a container. -/
def inside (a : Ancestor α) (walk : Stacked α m β) : Stacked α m β := do
  modify (pushAncestor a)
  let x ← walk
  modify popAncestor
  return x

/-- Goes on inside what holds a node, which for the root is nothing. -/
def below (parent : Option (Ancestor α)) (walk : Stacked α m β) : Stacked α m β :=
  match parent with
  | some a => inside a walk
  | none => walk

end Stacks

inductive VisitError where
  /-- A hook failed, with a message of its own. -/
  | callback (message : String)
  /-- A node was replaced by one that its slot does not admit. -/
  | invalidReplacement (key : PathKey) (expected : Category) (found : Kind)
  /-- A node was removed that its owner cannot do without. -/
  | removedRequired (owner : Kind) (key : PathKey)
  | removedRoot
  /-- The walk went deeper than it was allowed to. -/
  | tooDeep
deriving DecidableEq, Repr

def VisitError.message : VisitError → String
  | .callback message => message
  | .invalidReplacement key expected found =>
    "cannot put a " ++ found.text ++ " node at `" ++ key.text ++ "`: expected " ++ expected.text
  | .removedRequired owner key =>
    "cannot remove required field `" ++ key.text ++ "` of a " ++ owner.text ++ " node"
  | .removedRoot => "the root node cannot be removed"
  | .tooDeep => "the walk is too deep"

/-- Why a walk ended before all nodes were reached. -/
inductive Stop where
  | broken
  | failed (e : VisitError)
deriving DecidableEq, Repr

end QueryDoc
