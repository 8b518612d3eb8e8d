import QueryDoc.Proofs.Visit.Passing

/-!
# Visiting by rebuilding

What a visit does to trees can be said without numbers. A naive visit rebuilds
every node from the outcomes for its children, whether they changed or not, and
checks every child against its slot. Its hooks see plain trees and answer with
plain trees.

A visit and a naive visit can both write down the calls of their hooks: at which
hook, where, on which node and with which answer, all without numbers.
-/
namespace QueryDoc

/-- What a hook wants to happen, without numbers. -/
inductive Edit (α : Type) where
  | keep
  | skip
  | remove
  | replace (t : Tree α)
  | stop
  | fail (message : String)
deriving DecidableEq

/-- The answer asks for another tree. -/
def Edit.changes {α : Type} : Edit α → Bool
  | .remove => true
  | .replace _ => true
  | _ => false

/-- Hooks that never see a number. -/
structure PlainHooks (τ α : Type) where
  enter : Context α → Tree α → StateM τ (Edit α)
  leave : Context α → Tree α → StateM τ (Edit α)

/-- A walk that has no numbers to give out. -/
abbrev NaiveWalk (τ β : Type) : Type := ExceptT Stop (StateM τ) β

namespace NaiveWalk

variable {τ α β : Type}

def call (m : StateM τ β) : NaiveWalk τ β := ExceptT.lift m

def fail (e : VisitError) : NaiveWalk τ β := throw (.failed e)

/-- Puts the outcome for a child into its slot. -/
def settle (owner : Kind) (slot : Slot) (key : PathKey) :
    Option (Tree α) → NaiveWalk τ (List (Tree α))
  | none => if slot.arity = .required then fail (.removedRequired owner key) else return []
  | some after =>
    if slot.category.admits after.kind then return [after]
    else fail (.invalidReplacement key slot.category after.kind)

abbrev Step (τ α : Type) : Type := Context α → Tree α → NaiveWalk τ (Option (Tree α))

/-- The nodes of a slot from place `i` on, each visited. -/
def items (step : Step τ α) (owner : Kind) (slot : Slot) (place : Nat → Context α) :
    Nat → List (Tree α) → NaiveWalk τ (List (Tree α))
  | _, [] => return []
  | i, t :: ts => do
    let kept ← settle owner slot (Walk.keyOf slot i) (← step (place i) t)
    let rest ← items step owner slot place (i + 1) ts
    return kept ++ rest

/-- The slots of a node that stands at `c`, their nodes visited. -/
def slots (step : Step τ α) (c : Context α) (owner : Tree α) :
    List (Slot × List (Tree α)) → NaiveWalk τ (List (List (Tree α)))
  | [] => return []
  | (slot, ts) :: rest => do
    let kept ← items step owner.kind slot (c.inSlot owner slot ts) 0 ts
    let kept' ← slots step c owner rest
    return kept :: kept'

/-- The node with its children visited. -/
def children (step : Step τ α) (c : Context α) (t : Tree α) : NaiveWalk τ (Tree α) := do
  return .node t.head t.info (← slots step c t t.fields)

def leave (hooks : PlainHooks τ α) (c : Context α) (t : Tree α) :
    NaiveWalk τ (Option (Tree α)) := do
  match ← call (hooks.leave c t) with
  | .keep => return some t
  | .skip => return some t
  | .remove => return none
  | .replace r => return some r
  | .stop => throw .broken
  | .fail message => fail (.callback message)

/-- Visits a node and at most `depth` levels with it. -/
def node (hooks : PlainHooks τ α) : (depth : Nat) → Step τ α
  | 0, _, _ => fail .tooDeep
  | depth + 1, c, t => do
    match ← call (hooks.enter c t) with
    | .keep => leave hooks c (← children (node hooks depth) c t)
    | .skip => return some t
    | .remove => return none
    | .replace r => leave hooks c (← children (node hooks depth) c r)
    | .stop => throw .broken
    | .fail message => fail (.callback message)

end NaiveWalk

/-- Visits a tree by rebuilding all of it. -/
def PlainHooks.visit {τ α : Type} (hooks : PlainHooks τ α) (depth : Nat) (root : Tree α)
    (state : τ) : Except VisitError (Tree α) × τ :=
  match (NaiveWalk.node hooks depth .root root).run state with
  | (.ok (some t), s) => (.ok t, s)
  | (.ok none, s) => (.error .removedRoot, s)
  | (.error .broken, s) => (.ok root, s)
  | (.error (.failed e), s) => (.error e, s)

/-- What the end of the walk of a root makes of a visit. -/
def visitOutcome {α : Type} (root : Tree α) :
    Except Stop (Option (Tree α)) → Except VisitError (Tree α)
  | .ok (some t) => .ok t
  | .ok none => .error .removedRoot
  | .error .broken => .ok root
  | .error (.failed e) => .error e

/-- If the walk can only hand back the root, so can the visit. -/
theorem visitOutcome_eq_root {α : Type} {root t : Tree α} {r : Except Stop (Option (Tree α))}
    (value : ∀ x, r = .ok x → x = some root) (h : visitOutcome root r = .ok t) : t = root := by
  rcases r with e | x
  · cases e with
    | broken => exact (Except.ok.inj h).symm
    | failed e => exact nomatch h
  · rw [value x rfl] at h
    exact (Except.ok.inj h).symm

theorem visit_eq {σ α : Type} (hooks : Hooks σ α) (depth next : Nat) (root : Tree (Numbered α))
    (state : σ) :
    visit hooks depth next root state =
      (visitOutcome root ((Walk.node hooks depth .root root).run ⟨state, next⟩).1,
        ((Walk.node hooks depth .root root).run ⟨state, next⟩).2) := by
  rw [visit, Hooks.walk_eq]
  rcases (Walk.node hooks depth .root root).run ⟨state, next⟩ with ⟨(_ | _) | (_ | _), _⟩ <;> rfl

theorem PlainHooks.visit_eq {τ α : Type} (hooks : PlainHooks τ α) (depth : Nat) (root : Tree α)
    (state : τ) :
    hooks.visit depth root state =
      (visitOutcome root ((NaiveWalk.node hooks depth .root root).run state).1,
        ((NaiveWalk.node hooks depth .root root).run state).2) := by
  rw [visit]
  rcases (NaiveWalk.node hooks depth .root root).run state with ⟨(_ | _) | (_ | _), _⟩ <;> rfl

/-! ## Leaving out the numbers -/

section

variable {α : Type}

def Ancestor.plain : Ancestor (Numbered α) → Ancestor α
  | .node t => .node t.plain
  | .list ts => .list (ts.map Tree.plain)

def Context.plain (c : Context (Numbered α)) : Context α :=
  ⟨c.key, c.parent.map Ancestor.plain, c.path, c.ancestors.map Ancestor.plain⟩

def Action.plain : Action α → Edit α
  | .keep => .keep
  | .skip => .skip
  | .remove => .remove
  | .replace t => .replace (t.map Draft.info)
  | .stop => .stop
  | .fail message => .fail message

@[simp] theorem Context.plain_root : (Context.root : Context (Numbered α)).plain = .root := rfl

theorem Context.plain_outer (c : Context (Numbered α)) :
    c.plain.outer = c.outer.map Ancestor.plain := by
  simp only [outer, plain, List.map_append]
  cases c.parent <;> rfl

theorem Context.plain_child (c : Context (Numbered α)) (owner : Tree (Numbered α)) (slot : Slot) :
    (c.child owner slot).plain = c.plain.child owner.plain slot := by
  rw [child, child, plain_outer]
  rfl

theorem Context.plain_item (c : Context (Numbered α)) (owner : Tree (Numbered α)) (slot : Slot)
    (ts : List (Tree (Numbered α))) (i : Nat) :
    (c.item owner slot ts i).plain = c.plain.item owner.plain slot (ts.map Tree.plain) i := by
  rw [item, item, plain_outer, plain, List.map_append]
  rfl

@[simp] theorem Context.plain_inSlot (c : Context (Numbered α)) (owner : Tree (Numbered α))
    (slot : Slot) (ts : List (Tree (Numbered α))) (i : Nat) :
    (c.inSlot owner slot ts i).plain =
      c.plain.inSlot owner.plain slot (ts.map Tree.plain) i := by
  unfold inSlot
  cases slot.arity with
  | required => exact c.plain_child owner slot
  | optional => exact c.plain_child owner slot
  | many => exact c.plain_item owner slot ts i

end

/-! ## Calls -/

/-- A call of the entering or the leaving hook. -/
structure Call (α : Type) where
  leaving : Bool
  place : Context α
  node : Tree α
  answer : Edit α

section

variable {σ τ α β κ : Type}

/-- Runs a hook and adds a note of what it said to a log. -/
def noting (entry : β → κ) (m : StateM σ β) : StateM (σ × List κ) β := fun s =>
  let (x, s') := m s.1
  (x, (s', s.2 ++ [entry x]))

/-- Runs a hook and adds its call to a log. -/
def logged (entry : β → Call α) (m : StateM σ β) : StateM (σ × List (Call α)) β := fun s =>
  let (x, s') := m s.1
  (x, (s', s.2 ++ [entry x]))

def Hooks.logged (hooks : Hooks σ α) : Hooks (σ × List (Call α)) α where
  enter c t := QueryDoc.logged (fun a => ⟨false, c.plain, t.plain, a.plain⟩) (hooks.enter c t)
  leave c t := QueryDoc.logged (fun a => ⟨true, c.plain, t.plain, a.plain⟩) (hooks.leave c t)

def PlainHooks.logged (hooks : PlainHooks τ α) : PlainHooks (τ × List (Call α)) α where
  enter c t := QueryDoc.logged (fun a => ⟨false, c, t, a⟩) (hooks.enter c t)
  leave c t := QueryDoc.logged (fun a => ⟨true, c, t, a⟩) (hooks.leave c t)

/-- The calls of a visit, in order. -/
def Hooks.calls (hooks : Hooks σ α) (depth next : Nat) (root : Tree (Numbered α)) (state : σ) :
    List (Call α) :=
  (visit hooks.logged depth next root (state, [])).2.state.2

/-- The calls while the visit is at a node and below it. -/
def Hooks.callsAt (hooks : Hooks σ α) (depth : Nat) (c : Context (Numbered α))
    (t : Tree (Numbered α)) (p : Progress σ) : List (Call α) :=
  ((hooks.logged.walkAt depth c t).run ⟨(p.state, []), p.next⟩).2.state.2

/-- The calls of a naive visit, in order. -/
def PlainHooks.calls (hooks : PlainHooks τ α) (depth : Nat) (root : Tree α) (state : τ) :
    List (Call α) :=
  (hooks.logged.visit depth root (state, [])).2.2

end

end QueryDoc
