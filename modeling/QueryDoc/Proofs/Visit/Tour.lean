import QueryDoc.Proofs.Visit.Sharing

/-!
# The tour of a visit

A visit calls its hooks on a tour of the tree. At a node it enters; if the answer
lets it go on, the tours of the children follow in the order of their slots, and
then it leaves. After a replacement the children are those of the replacement. A
tour may break off anywhere, and with it all the tours around it.
-/
namespace QueryDoc

variable {σ α β γ κ ι : Type}

/-- Where a hook is called, and at which node. -/
structure Station (α : Type) where
  leaving : Bool
  place : Context α
  node : Tree α

/-- A call of a hook and what it answered. -/
structure Encounter (α : Type) extends Station (Numbered α) where
  answer : Action α

/-- Hooks that write down all they are asked and what they answer. -/
def Hooks.noted (hooks : Hooks σ α) : Hooks (σ × List (Encounter α)) α where
  enter c t := noting (fun a => ⟨⟨false, c, t⟩, a⟩) (hooks.enter c t)
  leave c t := noting (fun a => ⟨⟨true, c, t⟩, a⟩) (hooks.leave c t)

/-- The calls of a visit in order, with the numbers of the nodes. -/
def Hooks.encounters (hooks : Hooks σ α) (depth next : Nat) (root : Tree (Numbered α))
    (state : σ) : List (Encounter α) :=
  (visit hooks.noted depth next root (state, [])).2.state.2

/-- After the answer at `t` the visit goes on with the children of `u`. -/
inductive Action.Opens (t : Tree (Numbered α)) : Action α → Tree (Numbered α) → Prop where
  | keep : Opens t .keep t
  | replace (r : Tree (Draft α)) (next : Nat) : Opens t (.replace r) (Tree.adopt next r).1

/-- The children in one slot of a node that stands at `c`, with their places. -/
def Context.belowIn (c : Context α) (t : Tree α) (f : Slot × List (Tree α)) :
    List (Context α × Tree α) :=
  f.2.zipIdx.map fun x => (c.inSlot t f.1 f.2 x.2, x.1)

/-- The children of a node that stands at `c`, with their places. -/
def Context.below (c : Context α) (t : Tree α) : List (Context α × Tree α) :=
  t.fields.flatMap (c.belowIn t)

/-- A list that is put together from pieces, one for each item in turn. -/
inductive Pieced (T : ι → List κ → Prop) : List ι → List κ → Prop where
  | nil : Pieced T [] []
  | cons {x : ι} {xs : List ι} {ks ls : List κ} (first : T x ks) (rest : Pieced T xs ls) :
    Pieced T (x :: xs) (ks ++ ls)

/-- Calls that a visit of at most `depth` levels can make at a node and below it.
Those below may be left out, and so may the last one. -/
def Tour : (depth : Nat) → Context (Numbered α) × Tree (Numbered α) → List (Encounter α) → Prop
  | 0, _, calls => calls = []
  | depth + 1, (c, t), calls => calls = [] ∨ ∃ a inner last,
      calls = ⟨⟨false, c, t⟩, a⟩ :: (inner ++ last) ∧
      (inner = [] ∨ ∃ u, a.Opens t u ∧ Pieced (Tour depth) (c.below u) inner) ∧
      ∀ k ∈ last, k.leaving = true ∧ k.place = c

theorem Tour.nil (depth : Nat) (x : Context (Numbered α) × Tree (Numbered α)) :
    Tour depth x [] := by
  cases depth with
  | zero => exact rfl
  | succ depth => exact .inl rfl

namespace Pieced
variable {T : ι → List κ → Prop}

theorem one {x : ι} {ks : List κ} (h : T x ks) : Pieced T [x] ks := by
  rw [← List.append_nil ks]
  exact .cons h .nil

theorem append {xs ys : List ι} {ks ls : List κ} (hx : Pieced T xs ks) (hy : Pieced T ys ls) :
    Pieced T (xs ++ ys) (ks ++ ls) := by
  induction hx with
  | nil => exact hy
  | cons first _ ih =>
    rw [List.cons_append, List.append_assoc]
    exact .cons first ih

theorem of_nil (missing : ∀ x, T x []) (xs : List ι) : Pieced T xs [] := by
  induction xs with
  | nil => exact .nil
  | cons x xs ih => exact .cons (missing x) ih

end Pieced

/-! ## The calls of a visit -/

namespace Traces
variable {m' : Walk (σ × List κ) β} {m : Walk σ β} {f' : β → Walk (σ × List κ) γ}
  {f : β → Walk σ γ}

/-- A step that writes nothing down. -/
theorem quiet (same : ∀ s log next, m'.run ⟨(s, log), next⟩ =
    ((m.run ⟨s, next⟩).1, ⟨((m.run ⟨s, next⟩).2.state, log), (m.run ⟨s, next⟩).2.next⟩)) :
    Traces m' m fun _ calls => calls = [] := by
  intro s log next
  refine ⟨[], rfl, ?_⟩
  rw [same, List.append_nil]

theorem quiet_return (x : β) :
    Traces (return x : Walk (σ × List κ) β) (return x) fun _ calls => calls = [] :=
  quiet fun _ _ _ => rfl

theorem quiet_throw (e : Stop) :
    Traces (MonadExcept.throw e : Walk (σ × List κ) β) (MonadExcept.throw e)
      fun _ calls => calls = [] :=
  quiet fun _ _ _ => rfl

/-- First nothing is written down. -/
theorem quiet_bind {P : List κ → Prop} (hm : Traces m' m fun _ calls => calls = [])
    (missing : P []) (hf : ∀ x, Traces (f' x) (f x) fun _ calls => P calls) :
    Traces (m' >>= f') (m >>= f) fun _ calls => P calls := by
  refine hm.andThen hf ?_ ?_
  · rintro e calls rfl
    exact missing
  · rintro x r calls calls' rfl holds
    exact holds

/-- Nothing more is written down. -/
theorem then_quiet {P : List κ → Prop} (hm : Traces m' m fun _ calls => P calls)
    (hf : ∀ x, Traces (f' x) (f x) fun _ calls => calls = []) :
    Traces (m' >>= f') (m >>= f) fun _ calls => P calls := by
  refine hm.andThen hf (fun _ _ holds => holds) ?_
  rintro x r calls calls' holds rfl
  rwa [List.append_nil]

/-- Pieces for some items and then for others. -/
theorem pieces {T : ι → List κ → Prop} (missing : ∀ x, T x []) {xs ys : List ι}
    (hm : Traces m' m fun _ calls => Pieced T xs calls)
    (hf : ∀ x, Traces (f' x) (f x) fun _ calls => Pieced T ys calls) :
    Traces (m' >>= f') (m >>= f) fun _ calls => Pieced T (xs ++ ys) calls := by
  refine hm.andThen hf (fun e calls first => ?_) fun x r calls calls' first rest => ?_
  · rw [← List.append_nil calls]
    exact first.append (.of_nil missing ys)
  · exact first.append rest

end Traces

theorem settle_quiet (owner : Kind) (slot : Slot) (key : PathKey) (t : Tree (Numbered α))
    (x : Option (Tree (Numbered α))) :
    Traces (Walk.settle owner slot key t x : Walk (σ × List κ) _) (Walk.settle owner slot key t x)
      fun _ calls => calls = [] := by
  refine .quiet fun s log next => ?_
  cases x with
  | none =>
    rw [Walk.settle, Walk.settle]
    split <;> rfl
  | some u =>
    rw [Walk.settle, Walk.settle]
    split
    · rfl
    · split <;> rfl

section
variable {step' : Walk.Step (σ × List κ) α} {step : Walk.Step σ α}
  {T : Context (Numbered α) × Tree (Numbered α) → List κ → Prop} (missing : ∀ x, T x [])
  (hstep : ∀ c t, Traces (step' c t) (step c t) fun _ calls => T (c, t) calls)

include missing hstep

theorem items_pieced (owner : Kind) (slot : Slot) (place : Nat → Context (Numbered α))
    (ts : List (Tree (Numbered α))) (i : Nat) :
    Traces (Walk.items step' owner slot place i ts) (Walk.items step owner slot place i ts)
      fun _ calls => Pieced T ((ts.zipIdx i).map fun x => (place x.2, x.1)) calls := by
  induction ts generalizing i with
  | nil =>
    refine (Traces.quiet_return _).mono fun _ calls none => ?_
    rw [none]
    exact .nil
  | cons t ts ih =>
    rw [Walk.items, Walk.items, List.zipIdx_cons, List.map_cons, ← List.singleton_append]
    refine .pieces missing ((hstep (place i) t).mono fun _ _ => .one) fun x => ?_
    refine .quiet_bind (settle_quiet owner slot (Walk.keyOf slot i) t x) (.of_nil missing _) ?_
    exact fun kept => (ih (i + 1)).then_quiet fun rest => .quiet_return _

theorem slots_pieced (c : Context (Numbered α)) (owner : Tree (Numbered α))
    (fields : List (Slot × List (Tree (Numbered α)))) :
    Traces (Walk.slots step' c owner fields) (Walk.slots step c owner fields)
      fun _ calls => Pieced T (fields.flatMap (c.belowIn owner)) calls := by
  induction fields with
  | nil =>
    refine (Traces.quiet_return _).mono fun _ calls none => ?_
    rw [none]
    exact .nil
  | cons f fields ih =>
    have slot := items_pieced missing hstep owner.kind f.1 (c.inSlot owner f.1 f.2) f.2 0
    rw [Walk.slots, Walk.slots, List.flatMap_cons]
    exact .pieces missing slot fun kept => ih.then_quiet fun kept' => .quiet_return _

theorem children_pieced (c : Context (Numbered α)) (t : Tree (Numbered α)) :
    Traces (Walk.children step' c t) (Walk.children step c t)
      fun _ calls => Pieced T (c.below t) calls := by
  refine (slots_pieced missing hstep c t t.fields).then_quiet fun x => ?_
  obtain ⟨contents, edited⟩ := x
  cases edited with
  | true => exact .quiet fun _ _ _ => rfl
  | false => exact .quiet_return _

end

theorem leave_tour (hooks : Hooks σ α) (c : Context (Numbered α)) (t : Tree (Numbered α)) :
    Traces (Walk.leave hooks.noted c t) (Walk.leave hooks c t)
      fun _ calls => ∀ k ∈ calls, k.leaving = true ∧ k.place = c := by
  have one : ∀ a, (∀ k ∈ [(⟨⟨true, c, t⟩, a⟩ : Encounter α)], k.leaving = true ∧ k.place = c) :=
    fun a => List.forall_mem_singleton.2 ⟨rfl, rfl⟩
  refine .noting_bind fun a => ?_
  have silent : ∀ {m' : Walk (σ × List (Encounter α)) (Option (Tree (Numbered α)))} {m},
      Traces m' m (fun _ calls => calls = []) →
        Traces m' m fun _ calls => ∀ k ∈ (⟨⟨true, c, t⟩, a⟩ : Encounter α) :: calls,
          k.leaving = true ∧ k.place = c := by
    intro m' m h
    refine h.mono fun _ calls none => ?_
    rw [none]
    exact one a
  cases a with
  | keep => exact silent (.quiet_return _)
  | skip => exact silent (.quiet_return _)
  | remove => exact silent (.quiet_return _)
  | replace r => exact silent (.quiet fun _ _ _ => rfl)
  | stop => exact silent (.quiet_throw _)
  | fail message => exact silent (.quiet_throw _)

/-- The calls at a node and below it are a tour. -/
theorem node_tour (hooks : Hooks σ α) (depth : Nat) (c : Context (Numbered α))
    (t : Tree (Numbered α)) :
    Traces (Walk.node hooks.noted depth c t) (Walk.node hooks depth c t)
      fun _ calls => Tour depth (c, t) calls := by
  induction depth generalizing c t with
  | zero => exact .quiet_throw _
  | succ depth ih =>
    -- what follows an answer that goes on with the children of `u`
    have inside : ∀ a u, a.Opens t u →
        Traces (Walk.children (Walk.node hooks.noted depth) c u >>= Walk.leave hooks.noted c)
          (Walk.children (Walk.node hooks depth) c u >>= Walk.leave hooks c)
          fun _ calls => Tour (depth + 1) (c, t) (⟨⟨false, c, t⟩, a⟩ :: calls) := by
      intro a u opens
      refine (children_pieced (Tour.nil depth) ih c u).andThen (leave_tour hooks c) ?_ ?_
      · intro e calls inner
        refine .inr ⟨a, calls, [], ?_, .inr ⟨u, opens, inner⟩, nofun⟩
        rw [List.append_nil]
      · intro v r calls calls' inner last
        exact .inr ⟨a, calls, calls', rfl, .inr ⟨u, opens, inner⟩, last⟩
    refine .noting_bind fun a => ?_
    have alone : ∀ {m' : Walk (σ × List (Encounter α)) (Option (Tree (Numbered α)))} {m},
        Traces m' m (fun _ calls => calls = []) →
          Traces m' m fun _ calls => Tour (depth + 1) (c, t) (⟨⟨false, c, t⟩, a⟩ :: calls) := by
      intro m' m h
      refine h.mono fun _ calls none => .inr ⟨a, [], [], ?_, .inl rfl, nofun⟩
      rw [none]
      rfl
    cases a with
    | keep => exact inside .keep t .keep
    | skip => exact alone (.quiet_return _)
    | remove => exact alone (.quiet_return _)
    | replace r =>
      intro s log next
      exact inside (.replace r) _ (.replace r next) s log _
    | stop => exact alone (.quiet_throw _)
    | fail message => exact alone (.quiet_throw _)

/-- Hooks that write down their calls make the same visit. -/
theorem visit_noted (hooks : Hooks σ α) (depth next : Nat) (root : Tree (Numbered α)) (state : σ) :
    (visit hooks.noted depth next root (state, [])).1 = (visit hooks depth next root state).1 ∧
      (visit hooks.noted depth next root (state, [])).2.state.1 =
        (visit hooks depth next root state).2.state := by
  obtain ⟨calls, -, run⟩ := node_tour hooks depth .root root state [] next
  rw [visit_eq, visit_eq, run]
  exact ⟨rfl, rfl⟩

/-- The calls of a visit are a tour of the tree. -/
theorem encounters_tour (hooks : Hooks σ α) (depth next : Nat) (root : Tree (Numbered α))
    (state : σ) : Tour depth (.root, root) (hooks.encounters depth next root state) := by
  obtain ⟨calls, tour, run⟩ := node_tour hooks depth .root root state [] next
  rw [Hooks.encounters, visit_eq, run]
  exact tour

end QueryDoc
