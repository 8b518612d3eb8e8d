import QueryDoc.Proofs.Visit.Folding
import QueryDoc.Proofs.Visit.Tour

/-!
# A visit and a reduction walk alike

A procedure that decides where to go and edits nothing can be run by a visit and by
a reduction, which needs some values besides. Both call it at the same places, on
the same nodes and in the same states, and both end alike. The visit must be allowed
as many levels as the tree has.
-/
namespace QueryDoc

variable {σ α β γ δ ε ρ : Type}

/-- Where to go at the entry of a node. -/
inductive Decision where
  | descend
  | skip
  | stop
  | fail (message : String)

/-- A procedure that decides where a walk goes. -/
structure Decisions (σ α : Type) where
  enter : Context α → Tree α → StateM σ Decision
  leave : Context α → Tree α → StateM σ (Except String Unit)

def Decision.action : Decision → Action α
  | .descend => .keep
  | .skip => .skip
  | .stop => .stop
  | .fail message => .fail message

/-- The decision for a reduction, with a value for a node that is skipped. -/
def Decision.reduceAction (value : ρ) : Decision → ReduceAction ρ
  | .descend => .descend
  | .skip => .use value
  | .stop => .stop
  | .fail message => .fail message

namespace Decisions

/-- The procedure in a visit. -/
def hooks (d : Decisions σ (Numbered α)) : Hooks σ α where
  enter c t := fun s => ((d.enter c t s).1.action, (d.enter c t s).2)
  leave c t := fun s =>
    match d.leave c t s with
    | (.ok (), s) => (.keep, s)
    | (.error message, s) => (.fail message, s)

/-- The procedure in a reduction, with the values of the nodes that are skipped and of
those that are left. -/
def reducer (d : Decisions σ α) (skipped : Context α → Tree α → σ → ρ)
    (left : Context α → Tree α → Reduced ρ → σ → ρ) : Reducer σ α ρ where
  enter c t := fun s =>
    ((d.enter c t s).1.reduceAction (skipped c t (d.enter c t s).2), (d.enter c t s).2)
  leave c t values := fun s =>
    match d.leave c t s with
    | (.ok (), s) => (.ok (left c t values s), s)
    | (.error message, s) => (.error message, s)

/-- The procedure that writes down where it is called. -/
def noted (d : Decisions σ α) : Decisions (σ × List (Station α)) α where
  enter c t := noting (fun _ => ⟨false, c, t⟩) (d.enter c t)
  leave c t := noting (fun _ => ⟨true, c, t⟩) (d.leave c t)

end Decisions

/-- How a visit ends: it finishes, is broken off or fails. -/
def Hooks.ending (hooks : Hooks σ α) (depth next : Nat) (root : Tree (Numbered α)) (state : σ) :
    Except Stop Unit :=
  ((hooks.walk depth root).run ⟨state, next⟩).1.map fun _ => ()

/-- How a reduction ends. -/
def Reducer.ending (r : Reducer σ α ρ) (root : Tree α) (state : σ) : Except Stop Unit :=
  ((r.walk root).run state).1.map fun _ => ()

namespace Tree

mutual

/-- The number of levels of a tree. -/
def height : Tree α → Nat
  | .node _ _ slots => heightSlots slots + 1

def heightSlots : List (List (Tree α)) → Nat
  | [] => 0
  | ts :: rest => max (heightList ts) (heightSlots rest)

def heightList : List (Tree α) → Nat
  | [] => 0
  | t :: ts => max t.height (heightList ts)

end

theorem heightList_le {ts : List (Tree α)} {n : Nat} :
    heightList ts ≤ n ↔ ∀ t ∈ ts, t.height ≤ n := by
  induction ts with
  | nil => simp [heightList]
  | cons t ts ih => rw [heightList, Nat.max_le, ih, List.forall_mem_cons]

theorem heightSlots_le {slots : List (List (Tree α))} {n : Nat} :
    heightSlots slots ≤ n ↔ ∀ ts ∈ slots, ∀ t ∈ ts, t.height ≤ n := by
  induction slots with
  | nil => simp [heightSlots]
  | cons ts rest ih => rw [heightSlots, Nat.max_le, ih, heightList_le, List.forall_mem_cons]

end Tree

/-! ## Running side by side -/

/-- From the same state, a walk and a reduction come to the same state and end alike. -/
def Alongside (m : Walk σ β) (m' : Reduction.Walk σ γ) (Q : β → γ → Prop) : Prop :=
  ∀ s next, (m.run ⟨s, next⟩).2.state = (m'.run s).2 ∧
    Matches Q (m.run ⟨s, next⟩).1 (m'.run s).1

namespace Alongside

theorem pure {x : β} {y : γ} {Q : β → γ → Prop} (h : Q x y) :
    Alongside (σ := σ) (return x) (return y) Q := fun _ _ => ⟨rfl, .ok h⟩

theorem throw (e : Stop) {Q : β → γ → Prop} :
    Alongside (MonadExcept.throw e : Walk σ β) (MonadExcept.throw e : Reduction.Walk σ γ) Q :=
  fun _ _ => ⟨rfl, .error e⟩

theorem bind {m : Walk σ β} {m' : Reduction.Walk σ γ} {Q : β → γ → Prop} {f : β → Walk σ δ}
    {f' : γ → Reduction.Walk σ ε} {R : δ → ε → Prop} (hm : Alongside m m' Q)
    (hf : ∀ x y, Q x y → Alongside (f x) (f' y) R) : Alongside (m >>= f) (m' >>= f') R := by
  intro s next
  obtain ⟨state, ends⟩ := hm s next
  rw [walk_bind, walk_bind]
  generalize m.run ⟨s, next⟩ = a at *
  generalize m'.run s = b at *
  obtain ⟨o, s₁, n₁⟩ := a
  obtain ⟨o', s₁'⟩ := b
  obtain rfl : s₁ = s₁' := state
  cases ends with
  | ok h => exact hf _ _ h s₁ n₁
  | error e => exact ⟨rfl, .error e⟩

/-- Both call the same procedure. -/
theorem call {m : StateM σ β} {m' : StateM σ γ} {Q : β → γ → Prop}
    (h : ∀ s, (m s).2 = (m' s).2 ∧ Q (m s).1 (m' s).1) :
    Alongside (Walk.call m) (liftM m' : Reduction.Walk σ γ) Q :=
  fun s _ => ⟨(h s).1, .ok (h s).2⟩

/-- What a step of the walk does by itself. -/
theorem left {m : Walk σ β} {x : β} {m' : Reduction.Walk σ ε} {f : β → Walk σ δ}
    {R : δ → ε → Prop} (hm : ∀ p, m.run p = (.ok x, p)) (hf : Alongside (f x) m' R) :
    Alongside (m >>= f) m' R := by
  intro s next
  rw [walk_bind, hm]
  exact hf s next

end Alongside

/-- An unedited child goes back into its slot as it was. -/
theorem settle_same (owner : Kind) (slot : Slot) (key : PathKey) (t : Tree (Numbered α))
    (p : Progress σ) :
    (Walk.settle owner slot key t (some t)).run p = (.ok ([t], false), p) := by
  rw [Walk.settle, if_pos rfl]
  rfl

section
variable (d : Decisions σ (Numbered α))
  (skipped : Context (Numbered α) → Tree (Numbered α) → σ → ρ)
  (left : Context (Numbered α) → Tree (Numbered α) → Reduced ρ → σ → ρ)

/-- A visit and a reduction of the node go alongside, and the node comes back as it was. -/
def GoAlong (depth : Nat) (t : Tree (Numbered α)) : Prop :=
  ∀ c, Alongside (Walk.node d.hooks depth c t) (Reduction.node (d.reducer skipped left) c t)
    fun x y => x = some t ∧ y.isSome

variable {d skipped left} {depth : Nat}

theorem items_along (owner : Kind) (slot : Slot) (place : Nat → Context (Numbered α))
    {ts : List (Tree (Numbered α))} (h : ∀ t ∈ ts, GoAlong d skipped left depth t) (i : Nat) :
    Alongside (Walk.items (Walk.node d.hooks depth) owner slot place i ts)
      (Reduction.items (d.reducer skipped left) place i ts) fun x _ => x = (ts, false) := by
  induction ts generalizing i with
  | nil =>
    rw [Reduction.items]
    exact .pure rfl
  | cons t ts ih =>
    rw [List.forall_mem_cons] at h
    rw [Walk.items, Reduction.items]
    refine (h.1 (place i)).bind ?_
    rintro _ y ⟨rfl, -⟩
    refine .left (settle_same owner slot (Walk.keyOf slot i) t) ?_
    refine (ih h.2 (i + 1)).bind ?_
    rintro _ ys rfl
    exact .pure rfl

theorem slots_along (c : Context (Numbered α)) (owner : Tree (Numbered α)) (rules : List Slot)
    {slots : List (List (Tree (Numbered α)))}
    (h : ∀ ts ∈ slots, ∀ t ∈ ts, GoAlong d skipped left depth t) :
    Alongside (Walk.slots (Walk.node d.hooks depth) c owner (rules.zip slots))
      (Reduction.slots (d.reducer skipped left) c owner rules slots) fun x _ => x.2 = false := by
  induction slots generalizing rules with
  | nil =>
    rw [List.zip_nil_right, Reduction.slots]
    exact .pure rfl
  | cons ts slots ih =>
    cases rules with
    | nil =>
      rw [List.zip_nil_left, Reduction.slots]
      exact .pure rfl
    | cons rule rules =>
      rw [List.forall_mem_cons] at h
      rw [List.zip_cons_cons, Walk.slots, Reduction.slots]
      refine (items_along owner.kind rule (c.inSlot owner rule ts) h.1 0).bind ?_
      rintro _ values rfl
      refine (ih rules h.2).bind ?_
      rintro ⟨kept, edited⟩ fields rfl
      exact .pure rfl

theorem children_along (c : Context (Numbered α)) {head : Head} {info : Numbered α}
    {slots : List (List (Tree (Numbered α)))}
    (h : ∀ ts ∈ slots, ∀ t ∈ ts, GoAlong d skipped left depth t) :
    Alongside (Walk.children (Walk.node d.hooks depth) c (.node head info slots))
      (Reduction.slots (d.reducer skipped left) c (.node head info slots) head.kind.slots slots)
      fun x _ => x = .node head info slots := by
  rw [← bind_pure (Reduction.slots _ _ _ _ _)]
  refine (slots_along c (.node head info slots) head.kind.slots h).bind ?_
  rintro ⟨kept, edited⟩ fields rfl
  exact .pure rfl

theorem enter_along (c : Context (Numbered α)) (t : Tree (Numbered α)) :
    Alongside (Walk.call (d.hooks.enter c t))
      (liftM ((d.reducer skipped left).enter c t) : Reduction.Walk σ (ReduceAction ρ))
      fun a b => ∃ (x : Decision) (value : ρ), a = x.action ∧ b = x.reduceAction value :=
  .call fun s => ⟨rfl, (d.enter c t s).1, skipped c t (d.enter c t s).2, rfl, rfl⟩

theorem leave_along (c : Context (Numbered α)) (t : Tree (Numbered α)) (values : Reduced ρ) :
    Alongside (Walk.call (d.hooks.leave c t))
      (liftM ((d.reducer skipped left).leave c t values) : Reduction.Walk σ (Except String ρ))
      fun a b => (a = .keep ∧ ∃ v, b = .ok v) ∨ ∃ message, a = .fail message ∧
        b = .error message := by
  refine .call fun s => ?_
  rw [Decisions.hooks, Decisions.reducer]
  dsimp only
  rcases d.leave c t s with ⟨message | ⟨⟩, s'⟩
  · exact ⟨rfl, .inr ⟨message, rfl, rfl⟩⟩
  · exact ⟨rfl, .inl ⟨rfl, _, rfl⟩⟩

theorem node_along {t : Tree (Numbered α)} (h : t.height ≤ depth) :
    GoAlong d skipped left depth t := by
  induction t using Tree.induct generalizing depth with
  | node head info slots ih =>
    intro c
    obtain ⟨depth, rfl⟩ : ∃ n, depth = n + 1 := ⟨depth - 1, by rw [Tree.height] at h; omega⟩
    have lower := Tree.heightSlots_le.1 (Nat.le_of_succ_le_succ h)
    have below := fun ts hts t ht => ih ts hts t ht (lower ts hts t ht)
    rw [Walk.node, Reduction.node]
    refine (enter_along c _).bind ?_
    rintro _ _ ⟨decision, value, rfl, rfl⟩
    cases decision with
    | skip => exact .pure ⟨rfl, rfl⟩
    | stop => exact .throw .broken
    | fail message => exact .throw _
    | descend =>
      refine (children_along c below).bind ?_
      rintro _ fields rfl
      refine (leave_along c _ _).bind ?_
      rintro _ _ (⟨rfl, v, rfl⟩ | ⟨message, rfl, rfl⟩)
      · exact .pure ⟨rfl, rfl⟩
      · exact .throw _

end

/-- What the end of the reduction of a root makes of it. -/
def reduceOutcome : Except Stop (Option ρ) → Except VisitError (Option ρ)
  | .ok (some v) => .ok (some v)
  | .ok none => .error .removedRoot
  | .error .broken => .ok none
  | .error (.failed e) => .error e

theorem reduce_eq (r : Reducer σ α ρ) (root : Tree α) (state : σ) :
    reduce r root state =
      (reduceOutcome ((Reduction.node r .root root).run state).1,
        ((Reduction.node r .root root).run state).2) := by
  rw [reduce, Reducer.walk_eq]
  rcases (Reduction.node r .root root).run state with ⟨(_ | _) | (_ | _), _⟩ <;> rfl

/-- What a visit and a reduction of a root give back if they end alike: the root and a
value, the root and none if they are broken off, or the same error. -/
def EndsAs (root : Tree α) : Except Stop Unit → Except VisitError (Tree α) →
    Except VisitError (Option ρ) → Prop
  | .ok (), x, y => x = .ok root ∧ ∃ v, y = .ok (some v)
  | .error .broken, x, y => x = .ok root ∧ y = .ok none
  | .error (.failed e), x, y => x = .error e ∧ y = .error e

/-- A visit and a reduction that a procedure decides come to the same state and end
alike. -/
theorem decisions_along (d : Decisions σ (Numbered α))
    (skipped : Context (Numbered α) → Tree (Numbered α) → σ → ρ)
    (left : Context (Numbered α) → Tree (Numbered α) → Reduced ρ → σ → ρ) {depth : Nat}
    (next : Nat) {root : Tree (Numbered α)} (state : σ) (h : root.height ≤ depth) :
    (visit d.hooks depth next root state).2.state =
        (reduce (d.reducer skipped left) root state).2 ∧
      d.hooks.ending depth next root state = (d.reducer skipped left).ending root state ∧
      EndsAs root (d.hooks.ending depth next root state)
        (visit d.hooks depth next root state).1
        (reduce (d.reducer skipped left) root state).1 := by
  have along : GoAlong d skipped left depth root := node_along h
  obtain ⟨states, ends⟩ := along .root state next
  rw [visit_eq, reduce_eq, Hooks.ending, Reducer.ending, Hooks.walk_eq, Reducer.walk_eq]
  refine ⟨states, ?_⟩
  generalize ((Walk.node d.hooks depth .root root).run ⟨state, next⟩).1 = x at *
  generalize ((Reduction.node (d.reducer skipped left) .root root).run state).1 = y at *
  cases ends with
  | ok h =>
    obtain ⟨rfl, some⟩ := h
    obtain ⟨v, rfl⟩ := Option.isSome_iff_exists.1 some
    exact ⟨rfl, rfl, v, rfl⟩
  | error e =>
    cases e with
    | broken => exact ⟨rfl, rfl, rfl⟩
    | failed e => exact ⟨rfl, rfl, rfl⟩

end QueryDoc
