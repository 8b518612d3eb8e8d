import QueryDoc.Proofs.Tree.Walk
import QueryDoc.Proofs.Visit.Simulation

/-!
# What a visit leaves alone

Hooks that write down their calls make the same visit as the hooks themselves.
What the calls of a part of a walk say about its outcome is put together from
the calls of its parts: without an edit a node is handed back as it is, and once
a hook ends the visit nothing but the end of it is left. Without edits the nodes
are also entered in the order in which the tree is walked through.
-/
namespace QueryDoc

variable {σ α β γ κ : Type}

/-- No call asks for another tree. -/
def Unedited (calls : List (Call α)) : Prop := ∀ k ∈ calls, ¬ k.answer.changes

instance (calls : List (Call α)) : Decidable (Unedited calls) :=
  inferInstanceAs (Decidable (∀ k ∈ calls, ¬ k.answer.changes))

/-- The nodes that are entered, with their paths. -/
def entered (calls : List (Call α)) : List (List PathKey × Tree α) :=
  (calls.filter fun k => !k.leaving).map fun k => (k.place.path, k.node)

theorem unedited_append {calls calls' : List (Call α)} :
    Unedited (calls ++ calls') ↔ Unedited calls ∧ Unedited calls' := by
  simp only [Unedited, List.forall_mem_append]

@[simp] theorem entered_append (calls calls' : List (Call α)) :
    entered (calls ++ calls') = entered calls ++ entered calls' := by
  simp only [entered, List.filter_append, List.map_append]

/-- What the calls of a part of a walk say about its outcome, if `pre` holds of
what came before: without an edit the value is as `G` says and the nodes entered
are some of `order`. -/
structure Faithful (pre : Prop) (G : β → Prop) (order : List (List PathKey × Tree α))
    (r : Except Stop β) (calls : List (Call α)) : Prop where
  value : pre → Unedited calls → ∀ x, r = .ok x → G x
  entered : pre → Unedited calls → (entered calls).Sublist order
  stopped : (∃ k ∈ calls, k.answer = .stop) → r = .error .broken

/-- A walk whose hooks write down their calls runs as the walk does, and `P`
holds of the outcome and the calls. -/
def Traces (m' : Walk (σ × List κ) β) (m : Walk σ β)
    (P : Except Stop β → List κ → Prop) : Prop :=
  ∀ s log next, ∃ calls, P (m.run ⟨s, next⟩).1 calls ∧
    m'.run ⟨(s, log), next⟩ =
      ((m.run ⟨s, next⟩).1,
        ⟨((m.run ⟨s, next⟩).2.state, log ++ calls), (m.run ⟨s, next⟩).2.next⟩)

namespace Traces

variable {pre : Prop} {G : β → Prop} {G' : γ → Prop}
  {order order' : List (List PathKey × Tree α)}

theorem mono {m' : Walk (σ × List κ) β} {m : Walk σ β}
    {P Q : Except Stop β → List κ → Prop} (h : Traces m' m P)
    (imp : ∀ r calls, P r calls → Q r calls) : Traces m' m Q := by
  intro s log next
  obtain ⟨calls, holds, run⟩ := h s log next
  exact ⟨calls, imp _ _ holds, run⟩

/-- A step that calls no hook. -/
theorem silent {m' : Walk (σ × List (Call α)) β} {m : Walk σ β}
    (same : ∀ s log next, m'.run ⟨(s, log), next⟩ =
      ((m.run ⟨s, next⟩).1, ⟨((m.run ⟨s, next⟩).2.state, log), (m.run ⟨s, next⟩).2.next⟩))
    (value : pre → ∀ s next x, (m.run ⟨s, next⟩).1 = .ok x → G x) :
    Traces m' m (Faithful pre G order) := by
  intro s log next
  refine ⟨[], ⟨fun h _ => value h s next, fun _ _ => List.nil_sublist _, ?_⟩, ?_⟩
  · rintro ⟨k, hk, -⟩
    exact absurd hk List.not_mem_nil
  · rw [same, List.append_nil]

theorem pure {x : β} (h : pre → G x) :
    Traces (return x : Walk (σ × List (Call α)) β) (return x) (Faithful pre G order) :=
  silent (fun _ _ _ => rfl) fun hp _ _ _ e => Except.ok.inj e ▸ h hp

theorem throw (e : Stop) :
    Traces (throw e : Walk (σ × List (Call α)) β) (throw e) (Faithful pre G order) :=
  silent (fun _ _ _ => rfl) fun _ _ _ _ e => nomatch e

/-- What is written down in two parts in a row, the second of which may be missing. -/
theorem andThen {m' : Walk (σ × List κ) β} {m : Walk σ β} {f' : β → Walk (σ × List κ) γ}
    {f : β → Walk σ γ} {P : Except Stop β → List κ → Prop}
    {Q : β → Except Stop γ → List κ → Prop} {R : Except Stop γ → List κ → Prop}
    (hm : Traces m' m P) (hf : ∀ x, Traces (f' x) (f x) (Q x))
    (stops : ∀ e calls, P (.error e) calls → R (.error e) calls)
    (goes : ∀ x r calls calls', P (.ok x) calls → Q x r calls' → R r (calls ++ calls')) :
    Traces (m' >>= f') (m >>= f) R := by
  intro s log next
  obtain ⟨calls, holds, run⟩ := hm s log next
  rw [walk_bind, walk_bind, run]
  generalize m.run ⟨s, next⟩ = a at *
  obtain ⟨o, s₁, n₁⟩ := a
  cases o with
  | error e => exact ⟨calls, stops e calls holds, rfl⟩
  | ok x =>
    obtain ⟨calls', holds', run'⟩ := hf x s₁ (log ++ calls) n₁
    refine ⟨calls ++ calls', goes x _ calls calls' holds holds', ?_⟩
    rw [← List.append_assoc]
    exact run'

/-- Two parts in a row enter their nodes in a row. -/
theorem bind {m' : Walk (σ × List (Call α)) β} {m : Walk σ β}
    {f' : β → Walk (σ × List (Call α)) γ} {f : β → Walk σ γ}
    (hm : Traces m' m (Faithful pre G order))
    (hf : ∀ x, Traces (f' x) (f x) (Faithful (pre ∧ G x) G' order')) :
    Traces (m' >>= f') (m >>= f) (Faithful pre G' (order ++ order')) := by
  refine hm.andThen hf (fun e calls faithful => ?_) fun x r calls calls' faithful faithful' => ?_
  · refine ⟨fun _ _ _ hx => (nomatch hx), fun hp hu => ?_, fun hs => ?_⟩
    · exact (faithful.entered hp hu).trans (List.sublist_append_left _ _)
    · have broken := faithful.stopped hs
      exact congrArg Except.error (Except.error.inj broken)
  · refine ⟨fun hp hu => ?_, fun hp hu => ?_, fun hs => ?_⟩
    · rw [unedited_append] at hu
      exact faithful'.value ⟨hp, faithful.value hp hu.1 x rfl⟩ hu.2
    · rw [unedited_append] at hu
      rw [entered_append]
      exact (faithful.entered hp hu.1).append
        (faithful'.entered ⟨hp, faithful.value hp hu.1 x rfl⟩ hu.2)
    · obtain ⟨k, hk, stop⟩ := hs
      rcases List.mem_append.1 hk with hk | hk
      · exact nomatch faithful.stopped ⟨k, hk, stop⟩
      · exact faithful'.stopped ⟨k, hk, stop⟩

/-- A call of a hook comes first in what is written down. -/
theorem noting_bind {m : StateM σ (Action α)} {entry : Action α → κ}
    {f' : Action α → Walk (σ × List κ) β} {f : Action α → Walk σ β}
    {P : Except Stop β → List κ → Prop}
    (h : ∀ a, Traces (f' a) (f a) fun r calls => P r (entry a :: calls)) :
    Traces (Walk.call (noting entry m) >>= f') (Walk.call m >>= f) P := by
  intro s log next
  obtain ⟨calls, holds, run⟩ := h (m s).1 (m s).2 (log ++ [entry (m s).1]) next
  refine ⟨entry (m s).1 :: calls, holds, ?_⟩
  rw [List.append_cons]
  exact run

theorem call_bind {m : StateM σ (Action α)} {entry : Action α → Call α}
    {f' : Action α → Walk (σ × List (Call α)) β} {f : Action α → Walk σ β}
    {P : Except Stop β → List (Call α) → Prop}
    (h : ∀ a, Traces (f' a) (f a) fun r calls => P r (entry a :: calls)) :
    Traces (Walk.call (logged entry m) >>= f') (Walk.call m >>= f) P := noting_bind h

end Traces

theorem Context.path_inSlot (c : Context α) (owner : Tree α) (slot : Slot)
    (ts : List (Tree α)) (i : Nat) :
    (c.inSlot owner slot ts i).path =
      match slot.arity with
      | .many => c.path ++ [.field slot.key, .index i]
      | _ => c.path ++ [.field slot.key] := by
  unfold inSlot
  cases slot.arity <;> rfl

/-! ## Walks -/

/-- Steps that hand back an unedited node as it is. -/
def StepTraces (step' : Walk.Step (σ × List (Call α)) α) (step : Walk.Step σ α) : Prop :=
  ∀ (pre : Prop) c t, Traces (step' c t) (step c t)
    (Faithful pre (fun x => x = some t) (t.plain.walk c.path))

section

variable {pre : Prop} {order : List (List PathKey × Tree α)}

theorem settle_traces (owner : Kind) (slot : Slot) (key : PathKey) (t : Tree (Numbered α))
    (x : Option (Tree (Numbered α))) :
    Traces (Walk.settle owner slot key t x : Walk (σ × List (Call α)) _)
      (Walk.settle owner slot key t x)
      (Faithful (pre ∧ x = some t) (fun y => y = ([t], false)) order) := by
  cases x with
  | none =>
    rw [Walk.settle, Walk.settle]
    split
    · exact .throw _
    · exact .pure fun h => absurd h.2.symm (Option.some_ne_none t)
  | some u =>
    rw [Walk.settle, Walk.settle]
    split
    · exact .pure fun _ => rfl
    · next other =>
      split
      · exact .pure fun h => absurd (congrArg Tree.id (Option.some.inj h.2)) other
      · exact .throw _

variable {step' : Walk.Step (σ × List (Call α)) α} {step : Walk.Step σ α}
  (hstep : StepTraces step' step)

include hstep

theorem items_traces (owner : Kind) (slot : Slot) (c : Context (Numbered α))
    (t : Tree (Numbered α)) (all : List (Tree (Numbered α))) (ts : List (Tree (Numbered α)))
    (i : Nat) :
    Traces (Walk.items step' owner slot (c.inSlot t slot all) i ts)
      (Walk.items step owner slot (c.inSlot t slot all) i ts)
      (Faithful pre (fun x => x = (ts, false))
        (Tree.walkList c.path slot i (ts.map Tree.plain))) := by
  induction ts generalizing i pre with
  | nil => exact .pure fun _ => rfl
  | cons u ts ih =>
    have one := hstep pre (c.inSlot t slot all i) u
    rw [Context.path_inSlot] at one
    rw [Walk.items, Walk.items, List.map_cons, Tree.walkList]
    refine .bind one fun x => ?_
    rw [← List.nil_append (Tree.walkList _ _ _ _)]
    refine .bind (settle_traces owner slot (Walk.keyOf slot i) u x) fun kept => ?_
    rw [← List.append_nil (Tree.walkList _ _ _ _)]
    refine .bind (ih (i + 1)) fun rest => .pure fun h => ?_
    obtain ⟨⟨-, rfl⟩, rfl⟩ := h
    rfl

theorem slots_traces (c : Context (Numbered α)) (t : Tree (Numbered α))
    (fields : List (Slot × List (Tree (Numbered α)))) :
    Traces (Walk.slots step' c t fields) (Walk.slots step c t fields)
      (Faithful pre (fun x => x = (fields.map Prod.snd, false))
        (fields.flatMap fun f => Tree.walkList c.path f.1 0 (f.2.map Tree.plain))) := by
  induction fields generalizing pre with
  | nil => exact .pure fun _ => rfl
  | cons f rest ih =>
    obtain ⟨slot, ts⟩ := f
    rw [Walk.slots, Walk.slots, List.flatMap_cons]
    refine .bind (items_traces hstep t.kind slot c t ts ts 0) fun kept => ?_
    rw [← List.append_nil (List.flatMap _ _)]
    refine .bind ih fun kept' => .pure fun h => ?_
    obtain ⟨⟨-, rfl⟩, rfl⟩ := h
    rfl

theorem children_traces (c : Context (Numbered α)) (t : Tree (Numbered α)) :
    Traces (Walk.children step' c t) (Walk.children step c t)
      (Faithful pre (fun x => x = t)
        (t.plain.fields.flatMap fun f => Tree.walkList c.path f.1 0 f.2)) := by
  have below : Traces _ _ (Faithful pre _ _) := slots_traces hstep c t t.fields
  rw [Tree.plain, Tree.fields_map, List.flatMap_map, ← List.append_nil (List.flatMap _ _)]
  refine .bind below fun r => ?_
  obtain ⟨contents, edited⟩ := r
  cases edited with
  | true => exact .silent (fun _ _ _ => rfl) fun h => Bool.noConfusion (congrArg Prod.snd h.2)
  | false => exact .pure fun _ => rfl

end

namespace Faithful

variable {pre : Prop} {G : β → Prop} {order order' : List (List PathKey × Tree α)}
  {r : Except Stop β} {k : Call α} {calls : List (Call α)}

/-- A call that lets the walk go on. -/
theorem cons (h : Faithful pre G order r calls) (goes : k.answer ≠ .stop)
    (enters : (QueryDoc.entered [k] ++ order).Sublist order') :
    Faithful pre G order' r (k :: calls) where
  value hp hu := h.value hp (List.forall_mem_cons.1 hu).2
  entered hp hu := by
    have rest := h.entered hp (List.forall_mem_cons.1 hu).2
    rw [← List.singleton_append, entered_append]
    exact (List.Sublist.append_left rest _).trans enters
  stopped hs := by
    obtain ⟨k', hk', stop⟩ := hs
    rcases List.mem_cons.1 hk' with rfl | hk'
    · exact absurd stop goes
    · exact h.stopped ⟨k', hk', stop⟩

/-- Nothing is promised after a call that asks for another tree. -/
theorem changed (h : Faithful False (fun _ => False) [] r calls) (changes : k.answer.changes) :
    Faithful pre G order r (k :: calls) where
  value _ hu := absurd changes (List.forall_mem_cons.1 hu).1
  entered _ hu := absurd changes (List.forall_mem_cons.1 hu).1
  stopped hs := by
    obtain ⟨k', hk', stop⟩ := hs
    rcases List.mem_cons.1 hk' with rfl | hk'
    · rw [stop] at changes
      exact nomatch changes
    · exact h.stopped ⟨k', hk', stop⟩

end Faithful

namespace Traces

variable {pre pre' : Prop} {G G' : β → Prop} {order order' : List (List PathKey × Tree α)}
  {m' : Walk (σ × List (Call α)) β} {m : Walk σ β} {k : Call α}

/-- The walk goes on after a call. -/
theorem cons (h : Traces m' m (Faithful pre G order)) (goes : k.answer ≠ .stop)
    (enters : (entered [k] ++ order).Sublist order') :
    Traces m' m fun r calls => Faithful pre G order' r (k :: calls) :=
  h.mono fun _ _ h => h.cons goes enters

/-- After an edit only the end of the visit counts. -/
theorem vacuous (h : Traces m' m (Faithful pre' G' order')) :
    Traces m' m (Faithful False G order) :=
  h.mono fun _ _ faithful => ⟨False.elim, False.elim, faithful.stopped⟩

/-- The walk goes on after an edit. -/
theorem changed (h : Traces m' m (Faithful False (fun _ => False) []))
    (changes : k.answer.changes) :
    Traces m' m fun r calls => Faithful pre G order r (k :: calls) :=
  h.mono fun _ _ h => h.changed changes

/-- The walk is ended by a call. -/
theorem stopped (enters : (entered [k]).Sublist order) :
    Traces (MonadExcept.throw Stop.broken : Walk (σ × List (Call α)) β)
      (MonadExcept.throw Stop.broken : Walk σ β) fun r calls => Faithful pre G order r (k :: calls) := by
  intro s log next
  exact ⟨[], ⟨fun _ _ _ h => (nomatch h), fun _ _ => enters, fun _ => rfl⟩,
    by rw [List.append_nil]; rfl⟩

end Traces

/-! ## Nodes -/

theorem Hooks.enter_logged (hooks : Hooks σ α) (c : Context (Numbered α))
    (t : Tree (Numbered α)) :
    hooks.logged.enter c t =
      QueryDoc.logged (fun a => ⟨false, c.plain, t.plain, a.plain⟩) (hooks.enter c t) := rfl

theorem Hooks.leave_logged (hooks : Hooks σ α) (c : Context (Numbered α))
    (t : Tree (Numbered α)) :
    hooks.logged.leave c t =
      QueryDoc.logged (fun a => ⟨true, c.plain, t.plain, a.plain⟩) (hooks.leave c t) := rfl

section

variable {pre : Prop} {order : List (List PathKey × Tree α)}

theorem adopt_traces (d : Tree (Draft α)) {f' : Tree (Numbered α) → Walk (σ × List (Call α)) β}
    {f : Tree (Numbered α) → Walk σ β} {G : β → Prop}
    (h : ∀ t, Traces (f' t) (f t) (Faithful pre G order)) :
    Traces (Walk.adopt d >>= f') (Walk.adopt d >>= f) (Faithful pre G order) := by
  have adopted : Traces (Walk.adopt d : Walk (σ × List (Call α)) _) (Walk.adopt d)
      (Faithful pre (fun _ => True) []) := .silent (fun _ _ _ => rfl) fun _ _ _ _ _ => trivial
  exact .bind adopted fun t => (h t).mono fun r calls faithful =>
    ⟨fun hp => faithful.value hp.1, fun hp => faithful.entered hp.1, faithful.stopped⟩

theorem leave_traces (hooks : Hooks σ α) (c : Context (Numbered α)) {t u : Tree (Numbered α)}
    (same : pre → u = t) :
    Traces (Walk.leave hooks.logged c u) (Walk.leave hooks c u)
      (Faithful pre (fun x => x = some t) order) := by
  rw [Walk.leave, Walk.leave, Hooks.leave_logged]
  refine .call_bind fun a => ?_
  cases a with
  | keep => exact .cons (.pure fun h => congrArg some (same h)) (by simp [Action.plain]) (List.Sublist.refl _)
  | skip => exact .cons (.pure fun h => congrArg some (same h)) (by simp [Action.plain]) (List.Sublist.refl _)
  | remove => exact .changed (.pure False.elim) rfl
  | replace d => exact .changed (adopt_traces d fun t => .pure False.elim) rfl
  | stop => exact .stopped (List.nil_sublist order)
  | fail message => exact .cons (.throw _) (by simp [Action.plain]) (List.Sublist.refl _)

/-- Without an edit at a node or below it, the walk of the node hands it back. -/
theorem node_traces (hooks : Hooks σ α) (depth : Nat) :
    StepTraces (Walk.node hooks.logged depth) (Walk.node hooks depth) := by
  induction depth with
  | zero => exact fun _ _ _ => .throw _
  | succ depth ih =>
    intro pre c t
    have enters : (entered [(⟨false, c.plain, t.plain, .skip⟩ : Call α)]).Sublist
        (t.plain.walk c.path) := by
      rw [Tree.walk_eq]
      exact (List.nil_sublist _).cons_cons _
    have below : ∀ (p : Prop) (u : Tree (Numbered α)),
        Traces (Walk.children (Walk.node hooks.logged depth) c u >>= Walk.leave hooks.logged c)
          (Walk.children (Walk.node hooks depth) c u >>= Walk.leave hooks c)
          (Faithful p (fun x => x = some u)
            (u.plain.fields.flatMap fun f => Tree.walkList c.path f.1 0 f.2)) := by
      intro p u
      rw [← List.append_nil (List.flatMap _ _)]
      exact .bind (children_traces ih c u) fun v => leave_traces hooks c fun h => h.2
    rw [Walk.node, Walk.node, Hooks.enter_logged]
    refine .call_bind fun a => ?_
    cases a with
    | keep =>
      refine .cons (below pre t) (by simp [Action.plain]) ?_
      rw [Tree.walk_eq]
      exact List.Sublist.refl _
    | skip => exact .cons (.pure fun _ => rfl) (by simp [Action.plain]) enters
    | remove => exact .changed (.pure False.elim) rfl
    | replace d => exact .changed (adopt_traces d fun u => (below True u).vacuous) rfl
    | stop => exact .stopped enters
    | fail message => exact .cons (.throw _) (by simp [Action.plain]) enters

end

end QueryDoc
