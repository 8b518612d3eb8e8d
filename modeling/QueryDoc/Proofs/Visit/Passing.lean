import QueryDoc.Visit

/-!
# Where a node stands, handed down

A visit keeps the path and the containers of the node it is at on two stacks. What is
on them when a hook is called can be said without them: a node stands below its owner,
under the key of its slot, and in a list under its place as well. Here a visit hands
these contexts down from a node to its children instead of pushing and popping.

A stretch of a visit that goes down comes back with the stacks as they were, and did in
between what the visit that hands contexts down does. This is kept by each way to go
deeper, so it holds for a node by induction on the depth, and the two visits are one.
-/
namespace QueryDoc

/-! ## Contexts -/

namespace Context

variable {α : Type}

/-- Where the root stands. -/
def root : Context α := ⟨none, none, [], []⟩

/-- The containers around the children of a node that stands here, the node
itself left out. -/
def outer (c : Context α) : List (Ancestor α) := c.ancestors ++ c.parent.toList

/-- The stacks inside a node that stands here. -/
def inner (c : Context α) : Stacks α := ⟨c.path, c.outer⟩

/-- Where the node in a slot of `owner` stands. -/
def child (c : Context α) (owner : Tree α) (slot : Slot) : Context α :=
  ⟨some (.field slot.key), some (.node owner), c.path ++ [.field slot.key], c.outer⟩

/-- Where the node at place `i` of the list in a slot of `owner` stands. -/
def item (c : Context α) (owner : Tree α) (slot : Slot) (items : List (Tree α)) (i : Nat) :
    Context α :=
  ⟨some (.index i), some (.list items), c.path ++ [.field slot.key, .index i],
    c.outer ++ [.node owner]⟩

/-- Where the nodes in a slot of `owner` stand, by their place. -/
def inSlot (c : Context α) (owner : Tree α) (slot : Slot) (items : List (Tree α)) (i : Nat) :
    Context α :=
  match slot.arity with
  | .many => c.item owner slot items i
  | _ => c.child owner slot

section
variable (c : Context α) (owner : Tree α) {slot : Slot} (items : List (Tree α)) (i : Nat)

theorem inSlot_of_ne_many (h : slot.arity ≠ .many) :
    c.inSlot owner slot items i = c.child owner slot := by
  rw [inSlot]
  split
  · exact absurd ‹_› h
  · rfl

/-- The stacks at an item of a list in a slot. -/
theorem inSlot_of_many (h : slot.arity = .many) :
    c.inSlot owner slot items i = (((c.inner.push (.field slot.key)).pushAncestor
      (.node owner)).push (.index i)).context (some (.index i)) (some (.list items)) := by
  simp [inSlot, h, item, Stacks.context, Stacks.push, Stacks.pushAncestor, inner]

end

end Context

/-! ## The walk of a visit -/

namespace Walk

variable {σ α β : Type}

def fail (e : VisitError) : Walk σ β := throw (.failed e)

/-- Puts the outcome for a child back into its slot. The flag says whether
anything changed. -/
def settle (owner : Kind) (slot : Slot) (key : PathKey) (before : Tree (Numbered α)) :
    Option (Tree (Numbered α)) → Walk σ (List (Tree (Numbered α)) × Bool)
  | none =>
    if slot.arity = .required then fail (.removedRequired owner key) else return ([], true)
  | some after =>
    if after.id = before.id then return ([before], false)
    else if slot.category.admits after.kind then return ([after], true)
    else fail (.invalidReplacement key slot.category after.kind)

/-- How the node at a place is visited; none if it is removed. -/
abbrev Step (σ α : Type) : Type :=
  Context (Numbered α) → Tree (Numbered α) → Walk σ (Option (Tree (Numbered α)))

/-- The key under which a slot holds the node at place `i`. -/
def keyOf (slot : Slot) (i : Nat) : PathKey :=
  match slot.arity with
  | .many => .index i
  | _ => .field slot.key

/-- Visits the nodes of a slot from place `i` on. -/
def items (step : Step σ α) (owner : Kind) (slot : Slot) (place : Nat → Context (Numbered α)) :
    Nat → List (Tree (Numbered α)) → Walk σ (List (Tree (Numbered α)) × Bool)
  | _, [] => return ([], false)
  | i, t :: ts => do
    let after ← step (place i) t
    let (kept, edited) ← settle owner slot (keyOf slot i) t after
    let (rest, edited') ← items step owner slot place (i + 1) ts
    return (kept ++ rest, edited || edited')

/-- Visits the slots of a node that stands at `c`. -/
def slots (step : Step σ α) (c : Context (Numbered α)) (owner : Tree (Numbered α)) :
    List (Slot × List (Tree (Numbered α))) →
      Walk σ (List (List (Tree (Numbered α))) × Bool)
  | [] => return ([], false)
  | (slot, ts) :: rest => do
    let (kept, edited) ← items step owner.kind slot (c.inSlot owner slot ts) 0 ts
    let (kept', edited') ← slots step c owner rest
    return (kept :: kept', edited || edited')

/-- Visits the children of a node and rebuilds it if any of them changed. -/
def children (step : Step σ α) (c : Context (Numbered α)) (t : Tree (Numbered α)) :
    Walk σ (Tree (Numbered α)) := do
  let (contents, edited) ← slots step c t t.fields
  if edited then rebuild t contents else return t

/-- Leaves a node. -/
def leave (hooks : Hooks σ α) (c : Context (Numbered α)) (t : Tree (Numbered α)) :
    Walk σ (Option (Tree (Numbered α))) := do
  match ← call (hooks.leave c t) with
  | .keep => return some t
  | .skip => return some t
  | .remove => return none
  | .replace r => return some (← adopt r)
  | .stop => throw .broken
  | .fail message => fail (.callback message)

/-- Visits a node and at most `depth` levels with it. -/
def node (hooks : Hooks σ α) : (depth : Nat) → Step σ α
  | 0, _, _ => fail .tooDeep
  | depth + 1, c, t => do
    match ← call (hooks.enter c t) with
    | .keep => leave hooks c (← children (node hooks depth) c t)
    | .skip => return some t
    | .remove => return none
    | .replace r =>
      let t ← adopt r
      leave hooks c (← children (node hooks depth) c t)
    | .stop => throw .broken
    | .fail message => fail (.callback message)

end Walk

/-! ## Stacks that come back as they were -/

section Restores
variable {α β γ : Type} {m : Type → Type} [Monad m]

/-- From these stacks the stacked walk does what the other one does, and it leaves the
stacks as they were. -/
def Restores (s : Stacks α) (walk : Stacked α m β) (plain : m β) : Prop :=
  walk.run s = (fun x => (x, s)) <$> plain

variable [LawfulMonad m] {s : Stacks α} {walk : Stacked α m β} {plain : m β}

namespace Restores

theorem pure (x : β) : Restores s (Pure.pure x : Stacked α m β) (Pure.pure x) := by
  rw [Restores, StateT.run_pure, map_pure]

theorem lift (plain : m β) : Restores s (liftM plain : Stacked α m β) plain := by
  rw [Restores, map_eq_pure_bind]
  rfl

theorem bind {f : β → Stacked α m γ} {g : β → m γ} (h : Restores s walk plain)
    (hf : ∀ x, Restores s (f x) (g x)) : Restores s (walk >>= f) (plain >>= g) := by
  rw [Restores, StateT.run_bind, h, bind_map_left, map_bind]
  exact bind_congr hf

/-- What follows may look at the stacks. -/
theorem get_bind {f : Stacks α → Stacked α m γ} {plain : m γ} (h : Restores s (f s) plain) :
    Restores s (get >>= f) plain := by
  rw [Restores, StateT.run_bind, StateT.run_get, pure_bind]
  exact h

/-- Changes that undo each other, around a walk. -/
theorem bracket {change undo : Stacks α → Stacks α} (back : undo (change s) = s)
    (h : Restores (change s) walk plain) :
    Restores s (do modify change; let x ← walk; modify undo; return x) plain := by
  simp only [Restores, StateT.run_bind, StateT.run_modify, pure_bind] at h ⊢
  rw [h, bind_map_left]
  simp only [StateT.run_pure, back, map_eq_pure_bind]

theorem underKey {key : PathKey} (h : Restores (s.push key) walk plain) :
    Restores s (Stacks.underKey key walk) plain :=
  bracket (by simp [Stacks.push, Stacks.pop]) h

theorem inside {a : Ancestor α} (h : Restores (s.pushAncestor a) walk plain) :
    Restores s (Stacks.inside a walk) plain :=
  bracket (by simp [Stacks.pushAncestor, Stacks.popAncestor]) h

/-- Inside what holds a node, the containers are those around its children. -/
theorem below {key : Option PathKey} {parent : Option (Ancestor α)}
    (h : Restores (s.context key parent).inner walk plain) :
    Restores s (Stacks.below parent walk) plain := by
  cases parent with
  | some a => exact inside h
  | none =>
    have same : (s.context key none).inner = s := by
      rw [Context.inner, Context.outer, Stacks.context, Option.toList_none, List.append_nil]
    rw [same] at h
    exact h

/-- Without the stacks the two walks are one. -/
theorem run'_eq (h : Restores s walk plain) : walk.run' s = plain := by
  have fst : walk.run' s = Prod.fst <$> (fun x => (x, s)) <$> plain := congrArg (Prod.fst <$> ·) h
  rw [fst, Functor.map_map, id_map']

end Restores

end Restores

/-! ## The visit hands its contexts down -/

namespace Traversal

variable {σ α : Type} {step' : Step σ α} {step : Walk.Step σ α}

/-- Both ways to visit a node agree, wherever the node stands. -/
def Agrees (step' : Step σ α) (step : Walk.Step σ α) : Prop :=
  ∀ s t key parent, Restores s (step' t key parent) (step (s.context key parent) t)

/-- What a slot holds, as a list. -/
def contents (x : Option (Tree (Numbered α)) × Bool) : List (Tree (Numbered α)) × Bool :=
  (x.1.toList, x.2)

theorem settle_restores (s : Stacks (Numbered α)) (owner : Kind) {slot : Slot}
    (h : slot.arity ≠ .required) (key : PathKey) (t : Tree (Numbered α))
    (after : Option (Tree (Numbered α))) :
    Restores s (contents <$> (settle slot key t after : Traversal σ α _))
      (Walk.settle owner slot key t after) := by
  cases after with
  | none =>
    rw [Walk.settle, if_neg h]
    exact .pure ([], true)
  | some u =>
    rw [settle, Walk.settle]
    split
    · exact .pure ([t], false)
    · split
      · exact .pure ([u], true)
      · rfl

/-- A required child that was removed is an error. -/
theorem settle_required (s : Stacks (Numbered α)) (owner : Kind) {slot : Slot}
    (h : slot.arity = .required) (key : PathKey) (t : Tree (Numbered α))
    (after : Option (Tree (Numbered α))) :
    Restores s
      (contents <$> (settle slot key t after >>= fun x =>
        if x.1.isNone then fail (.removedRequired owner key) else return x : Traversal σ α _))
      (Walk.settle owner slot key t after) := by
  cases after with
  | none =>
    rw [Walk.settle, if_pos h]
    rfl
  | some u =>
    rw [settle, Walk.settle]
    split
    · exact .pure ([t], false)
    · split
      · exact .pure ([u], true)
      · rfl

section Children
variable (agrees : Agrees step' step) (c : Context (Numbered α)) (owner : Tree (Numbered α))

include agrees

theorem child_restores {slot : Slot} (h : slot.arity ≠ .required) (t : Tree (Numbered α)) :
    Restores c.inner (contents <$> child step' owner slot t) (do
      let after ← step (c.child owner slot) t
      Walk.settle owner.kind slot (.field slot.key) t after) := by
  rw [child, map_bind]
  have below := (agrees (c.inner.push (.field slot.key)) t (some (.field slot.key))
    (some (.node owner))).underKey
  exact below.bind fun after => settle_restores _ owner.kind h _ t after

theorem required_restores {slot : Slot} (h : slot.arity = .required) (t : Tree (Numbered α)) :
    Restores c.inner (contents <$> required step' owner slot t) (do
      let after ← step (c.child owner slot) t
      Walk.settle owner.kind slot (.field slot.key) t after) := by
  rw [required, child, bind_assoc, map_bind]
  have below := (agrees (c.inner.push (.field slot.key)) t (some (.field slot.key))
    (some (.node owner))).underKey
  exact below.bind fun after => settle_required _ owner.kind h _ t after

omit agrees in
theorem single_restores {slot : Slot} (h : slot.arity ≠ .many)
    {visitChild : Tree (Numbered α) → Traversal σ α (Option (Tree (Numbered α)) × Bool)}
    (each : ∀ t, Restores c.inner (contents <$> visitChild t) (do
      let after ← step (c.child owner slot) t
      Walk.settle owner.kind slot (.field slot.key) t after))
    (all ts : List (Tree (Numbered α))) (i : Nat) :
    Restores c.inner (single visitChild ts)
      (Walk.items step owner.kind slot (c.inSlot owner slot all) i ts) := by
  have key : ∀ i, Walk.keyOf slot i = .field slot.key := fun i => by
    rw [Walk.keyOf]
    split
    · exact absurd ‹_› h
    · rfl
  induction ts generalizing i with
  | nil => exact .pure ([], false)
  | cons t ts ih =>
    have first := each t
    rw [Walk.items, c.inSlot_of_ne_many owner all i h, key, ← bind_assoc]
    have split : single visitChild (t :: ts) = (do
        let (kept, edited) ← contents <$> visitChild t
        let (rest, edited') ← single visitChild ts
        return (kept ++ rest, edited || edited')) := by
      rw [bind_map_left]
      rfl
    rw [split]
    exact first.bind fun x => (ih (i + 1)).bind fun y => .pure _

theorem items_restores {slot : Slot} (h : slot.arity = .many) (all ts : List (Tree (Numbered α)))
    (i : Nat) :
    Restores ((c.inner.push (.field slot.key)).pushAncestor (.node owner))
      (items step' slot (.list all) i ts)
      (Walk.items step owner.kind slot (c.inSlot owner slot all) i ts) := by
  have hsettle : slot.arity ≠ .required := by simp [h]
  induction ts generalizing i with
  | nil => exact .pure ([], false)
  | cons t ts ih =>
    have key : Walk.keyOf slot i = .index i := by simp [Walk.keyOf, h]
    have split : items step' slot (.list all) i (t :: ts) = (do
        let after ← Stacks.underKey (.index i) (step' t (some (.index i)) (some (.list all)))
        let (kept, edited) ← contents <$> settle slot (.index i) t after
        let (rest, edited') ← items step' slot (.list all) (i + 1) ts
        return (kept ++ rest, edited || edited')) := by
      simp only [bind_map_left]
      rfl
    rw [split, Walk.items, c.inSlot_of_many owner all i h, key]
    refine (agrees _ t _ _).underKey.bind fun after => ?_
    refine (settle_restores _ owner.kind hsettle _ t after).bind fun x => ?_
    exact (ih (i + 1)).bind fun y => .pure _

theorem list_restores {slot : Slot} (h : slot.arity = .many) (ts : List (Tree (Numbered α))) :
    Restores c.inner (list step' owner slot ts)
      (Walk.items step owner.kind slot (c.inSlot owner slot ts) 0 ts) := by
  cases ts with
  | nil => exact .pure ([], false)
  | cons t ts => exact (items_restores agrees c owner h _ _ 0).inside.underKey

theorem inSlot_restores (slot : Slot) (ts : List (Tree (Numbered α))) :
    Restores c.inner (inSlot step' owner slot ts)
      (Walk.items step owner.kind slot (c.inSlot owner slot ts) 0 ts) := by
  rw [inSlot]
  split
  next h =>
    exact single_restores c owner (by simp [h]) (required_restores agrees c owner h) ts ts 0
  next h =>
    have kept : slot.arity ≠ .required := by simp [h]
    exact single_restores c owner (by simp [h]) (child_restores agrees c owner kept) ts ts 0
  next h => exact list_restores agrees c owner h ts

theorem slots_restores (fields : List (Slot × List (Tree (Numbered α)))) :
    Restores c.inner (slots step' owner fields) (Walk.slots step c owner fields) := by
  induction fields with
  | nil => exact .pure ([], false)
  | cons f fields ih =>
    exact (inSlot_restores agrees c owner f.1 f.2).bind fun x => ih.bind fun y => .pure _

omit owner in
theorem children_restores (t : Tree (Numbered α)) :
    Restores c.inner (children step' t) (Walk.children step c t) := by
  refine (slots_restores agrees c t t.fields).bind fun x => ?_
  obtain ⟨contents, edited⟩ := x
  cases edited with
  | true => exact .lift _
  | false => exact .pure t

omit owner c in
/-- A node that was entered is left where it was entered. -/
theorem finish_agrees (hooks : Hooks σ α) :
    Agrees (finish hooks step') fun c t => Walk.children step c t >>= Walk.leave hooks c := by
  intro s t key parent
  refine (Restores.below (children_restores agrees (s.context key parent) t)).bind fun u => ?_
  refine .get_bind ((Restores.lift (Walk.call _)).bind fun action => ?_)
  cases action with
  | keep => exact .pure _
  | skip => exact .pure _
  | remove => exact .pure _
  | replace r => exact (Restores.lift _).bind fun v => .pure _
  | stop => rfl
  | fail message => rfl

end Children

/-- **The stacks say where a node stands.** By induction on the depth. -/
theorem node_agrees (hooks : Hooks σ α) (depth : Nat) :
    Agrees (node hooks depth) (Walk.node hooks depth) := by
  induction depth with
  | zero => exact fun s t key parent => rfl
  | succ depth ih =>
    intro s t key parent
    refine .get_bind ((Restores.lift (Walk.call _)).bind fun action => ?_)
    cases action with
    | keep => exact finish_agrees ih hooks s t key parent
    | skip => exact .pure _
    | remove => exact .pure _
    | replace r => exact (Restores.lift _).bind fun u => finish_agrees ih hooks s u key parent
    | stop => rfl
    | fail message => rfl

end Traversal

section
variable {σ α : Type} (hooks : Hooks σ α) (depth : Nat)

/-- The walk of a node from the stacks as they are where it stands. -/
def Hooks.walkAt (c : Context (Numbered α)) (t : Tree (Numbered α)) :
    Walk σ (Option (Tree (Numbered α))) :=
  (Traversal.node hooks depth t c.key c.parent).run' ⟨c.path, c.ancestors⟩

/-- A visit with stacks goes as the one that hands contexts down. -/
theorem Hooks.walkAt_eq (c : Context (Numbered α)) (t : Tree (Numbered α)) :
    hooks.walkAt depth c t = Walk.node hooks depth c t :=
  (Traversal.node_agrees hooks depth ⟨c.path, c.ancestors⟩ t c.key c.parent).run'_eq

theorem Hooks.walk_eq (root : Tree (Numbered α)) :
    hooks.walk depth root = Walk.node hooks depth .root root :=
  hooks.walkAt_eq depth .root root

end

end QueryDoc
