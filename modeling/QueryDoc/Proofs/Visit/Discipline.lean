import QueryDoc.Proofs.Visit.Course

/-!
# The discipline of the hooks

If no entering hook replaces a node, the hooks of a visit are called along the way
through the tree. Each node is entered in its turn unless it was left out from above,
and left once its children are done. The first call that ends the visit is the last
one, and decides what the visit gives back.
-/
namespace QueryDoc

variable {σ α β γ κ : Type}

/-! ## What a walk writes down -/

/-- Whatever the hooks remember, `P` holds of the outcome of the walk and of what it
writes down. The numbers for new nodes are `least` or more. -/
def Notes (least : Nat) (m : Walk (σ × List κ) β) (P : Except Stop β → List κ → Prop) : Prop :=
  ∀ s log next, least ≤ next → ∃ r s' part next',
    m.run ⟨(s, log), next⟩ = (r, ⟨(s', log ++ part), next'⟩) ∧ least ≤ next' ∧ P r part

namespace Notes
variable {least : Nat} {P : Except Stop β → List κ → Prop}

/-- A step that writes nothing down. -/
theorem silent {m : Walk (σ × List κ) β} (run : ∀ s next, least ≤ next →
    ∃ r next', m.run ⟨s, next⟩ = (r, ⟨s, next'⟩) ∧ least ≤ next' ∧ P r []) : Notes least m P := by
  intro s log next le
  obtain ⟨r, next', run, le', holds⟩ := run (s, log) next le
  refine ⟨r, s, [], next', ?_, le', holds⟩
  rw [List.append_nil]
  exact run

theorem pure {x : β} (h : P (.ok x) []) : Notes least (return x : Walk (σ × List κ) β) P :=
  silent fun _ next le => ⟨.ok x, next, rfl, le, h⟩

theorem throw {e : Stop} (h : P (.error e) []) :
    Notes least (MonadExcept.throw e : Walk (σ × List κ) β) P :=
  silent fun _ next le => ⟨.error e, next, rfl, le, h⟩

theorem throw_bind {e : Stop} {f : γ → Walk (σ × List κ) β} (h : P (.error e) []) :
    Notes least (MonadExcept.throw e >>= f) P :=
  silent fun _ next le => ⟨.error e, next, rfl, le, h⟩

theorem mono {m : Walk (σ × List κ) β} {Q : Except Stop β → List κ → Prop}
    (h : Notes least m P) (imp : ∀ r part, P r part → Q r part) : Notes least m Q := by
  intro s log next le
  obtain ⟨r, s', part, next', run, le', holds⟩ := h s log next le
  exact ⟨r, s', part, next', run, le', imp r part holds⟩

/-- A walk that stops in its first part or goes on with the second. -/
theorem andThen {m : Walk (σ × List κ) β} {f : β → Walk (σ × List κ) γ}
    {R : Except Stop γ → List κ → Prop} (hm : Notes least m P)
    (stops : ∀ e part, P (.error e) part → R (.error e) part)
    (goes : ∀ x part, P (.ok x) part → Notes least (f x) fun r part' => R r (part ++ part')) :
    Notes least (m >>= f) R := by
  intro s log next le
  obtain ⟨r, s₁, part, n₁, run, le₁, holds⟩ := hm s log next le
  rw [walk_bind, run]
  cases r with
  | error e => exact ⟨_, s₁, part, n₁, rfl, le₁, stops e part holds⟩
  | ok x =>
    obtain ⟨r, s₂, part', n₂, run', le₂, holds'⟩ := goes x part holds s₁ (log ++ part) n₁ le₁
    refine ⟨r, s₂, part ++ part', n₂, ?_, le₂, holds'⟩
    rw [← List.append_assoc]
    exact run'

/-- A call of a hook comes first in what is written down. -/
theorem call_bind {m : StateM σ γ} {entry : γ → κ} {f : γ → Walk (σ × List κ) β}
    (h : ∀ s, Notes least (f (m s).1) fun r part => P r (entry (m s).1 :: part)) :
    Notes least (Walk.call (noting entry m) >>= f) P := by
  intro s log next le
  obtain ⟨r, s', part, next', run, le', holds⟩ := h s (m s).2 (log ++ [entry (m s).1]) next le
  refine ⟨r, s', entry (m s).1 :: part, next', ?_, le', holds⟩
  rw [List.append_cons]
  exact run

theorem adopt_bind (r : Tree (Draft α)) {f : Tree (Numbered α) → Walk (σ × List κ) β}
    (h : ∀ next, least ≤ next → Notes least (f (Tree.adopt next r).1) P) :
    Notes least (Walk.adopt r >>= f) P := by
  intro s log next le
  exact h next le s log (Tree.adopt next r).2 (Nat.le_trans le (Tree.le_adopt r next))

theorem rebuild {t : Tree (Numbered α)} {slots : List (List (Tree (Numbered α)))}
    {P : Except Stop (Tree (Numbered α)) → List κ → Prop}
    (h : ∀ u : Tree (Numbered α), u.kind = t.kind → P (.ok u) []) :
    Notes least (Walk.rebuild t slots : Walk (σ × List κ) _) P :=
  silent fun _ next le => ⟨_, next + 1, rfl, Nat.le_succ_of_le le, h _ rfl⟩

end Notes

/-! ## What becomes of a node -/

/-- How the visit of a node at a place stops it, if it does: within, or because the
place refuses what came of the node. -/
def Context.verdict (c : Context (Numbered α)) :
    Except Stop (Option (Tree (Numbered α))) → Option Stop
  | .error e => some e
  | .ok after => (c.refusal (after.map Tree.asDraft)).map .failed

/-- How a part of a walk stopped the visit, if it did. -/
def stoppedBy : Except Stop β → Option Stop
  | .error e => some e
  | .ok _ => none

theorem id_asDraft (t : Tree (Numbered α)) : t.asDraft.info.id = some t.id := by
  rw [Tree.asDraft, Tree.info_map]; rfl

theorem kind_asDraft (t : Tree (Numbered α)) : t.asDraft.kind = t.kind := Tree.kind_map _ t

theorem settle_of_refused {owner : Kind} {slot : Slot} {key : PathKey} {t : Tree (Numbered α)}
    {after : Option (Tree (Numbered α))} {e : VisitError}
    (h : Seat.refusal ⟨owner, slot, key, t⟩ (after.map Tree.asDraft) = some e) :
    (Walk.settle owner slot key t after : Walk σ _) = Walk.fail e := by
  cases after with
  | none =>
    rw [Option.map_none, Seat.refusal] at h
    rw [Walk.settle]
    split at h
    · next required => rw [if_pos required, Option.some.inj h]
    · cases h
  | some u =>
    rw [Option.map_some, Seat.refusal, id_asDraft, kind_asDraft] at h
    rw [Walk.settle]
    split at h
    · cases h
    · next other =>
      split at h
      · cases h
      · next wrong =>
        rw [if_neg fun same => other (congrArg some same), if_neg wrong, Option.some.inj h]

theorem settle_of_admitted {owner : Kind} {slot : Slot} {key : PathKey} {t : Tree (Numbered α)}
    {after : Option (Tree (Numbered α))}
    (h : Seat.refusal ⟨owner, slot, key, t⟩ (after.map Tree.asDraft) = none) :
    ∃ x, (Walk.settle owner slot key t after : Walk σ _) = return x := by
  cases after with
  | none =>
    rw [Option.map_none, Seat.refusal] at h
    rw [Walk.settle]
    split at h
    · cases h
    · next spare => exact ⟨_, if_neg spare⟩
  | some u =>
    rw [Option.map_some, Seat.refusal, id_asDraft, kind_asDraft] at h
    rw [Walk.settle]
    split at h
    · next same => exact ⟨_, if_pos (Option.some.inj same)⟩
    · next other =>
      split at h
      · next admitted =>
        rw [if_neg fun same => other (congrArg some same)]
        exact ⟨_, if_pos admitted⟩
      · cases h

/-- The node is the one that is held at the place, and of a kind that is admitted there. -/
def Seated (c : Context (Numbered α)) (t : Tree (Numbered α)) : Prop :=
  ∀ s, c.seat? = some s → s.held = t ∧ s.slot.category.admits t.kind

namespace Seated
variable {c : Context (Numbered α)} {t u : Tree (Numbered α)}

theorem below (fits : t.Fits) {x : Context (Numbered α) × Tree (Numbered α)} (hx : x ∈ c.below t) :
    Seated x.1 x.2 := by
  obtain ⟨f, hf, i, item, place⟩ := Context.mem_below hx
  intro s hs
  rw [place, Context.seat_inSlot fits hf c item] at hs
  obtain rfl := Option.some.inj hs
  exact ⟨rfl, (fits.fields_holds f hf).2 x.2 (List.mem_of_getElem? item)⟩

/-- Another node of the same kind is not refused. -/
theorem refusal_eq_none (h : Seated c t) (kind : u.kind = t.kind) :
    c.refusal (some u.asDraft) = none := by
  rw [Context.refusal]
  cases hs : c.seat? with
  | none => rfl
  | some s =>
    have admits := (h s hs).2
    rw [← kind, ← kind_asDraft] at admits
    simp only [Seat.refusal, admits, if_true, ite_self]

/-- A new node is refused just if its draft is. -/
theorem refusal_adopt (h : Seated c t) {next : Nat} (new : t.id < next) (r : Tree (Draft α)) :
    c.refusal (some (Tree.adopt next r).1.asDraft) = c.refusal (some r) := by
  have kind : (Tree.adopt next r).1.asDraft.kind = r.kind := by
    rw [kind_asDraft]
    cases r; rfl
  have id : (Tree.adopt next r).1.asDraft.info.id = some (r.info.id.getD next) := by
    rw [id_asDraft]
    cases r; rfl
  rw [Context.refusal, Context.refusal]
  cases hs : c.seat? with
  | none => rfl
  | some s =>
    have same : some (r.info.id.getD next) = some s.held.id ↔ r.info.id = some s.held.id := by
      rw [(h s hs).1]
      cases r.info.id with
      | some i => rfl
      | none =>
        refine ⟨fun new' => ?_, nofun⟩
        have := Option.some.inj new'
        rw [Option.getD_none] at this
        omega
    simp only [Seat.refusal, kind, id, same]

end Seated

section
variable {step : Walk.Step (σ × List (Encounter α)) α} {least : Nat}

/-- The calls in the visit of a node are a course. -/
def TakesCourse (least : Nat) (step : Walk.Step (σ × List (Encounter α)) α)
    (x : Context (Numbered α) × Tree (Numbered α)) : Prop :=
  Notes least (step x.1 x.2) fun r part => Course [x] (x.1.verdict r) part

theorem items_course (owner : Kind) (slot : Slot) (place : Nat → Context (Numbered α))
    {ts : List (Tree (Numbered α))} {i : Nat}
    {xs : List (Context (Numbered α) × Tree (Numbered α))}
    (hxs : ((ts.zipIdx i).map fun x => (place x.2, x.1)) = xs)
    (seats : ∀ y ∈ ts.zipIdx i,
      (place y.2).seat? = some ⟨owner, slot, Walk.keyOf slot y.2, y.1⟩)
    (each : ∀ x ∈ xs, TakesCourse least step x)
    (apart : xs.Pairwise fun x y => Apart x.1.path y.1.path) :
    Notes least (Walk.items step owner slot place i ts)
      fun r part => Course xs (stoppedBy r) part := by
  induction ts generalizing i xs with
  | nil =>
    subst hxs
    exact .pure .nil
  | cons t ts ih =>
    rw [List.zipIdx_cons, List.map_cons] at hxs
    generalize hys : (ts.zipIdx (i + 1)).map (fun x => (place x.2, x.1)) = ys at *
    subst hxs
    rw [List.zipIdx_cons, List.forall_mem_cons] at seats
    rw [List.forall_mem_cons] at each
    obtain ⟨away, apart⟩ := List.pairwise_cons.1 apart
    have cross : ∀ x ∈ [(place i, t)], ∀ y ∈ ys, Apart x.1.path y.1.path :=
      List.forall_mem_singleton.2 away
    have rest := ih hys seats.2 each.2 apart
    rw [Walk.items]
    refine each.1.andThen (fun e part h => h.cut ys) fun after part h => ?_
    simp only [Context.verdict, Context.refusal, seats.1] at h
    cases refused : Seat.refusal ⟨owner, slot, Walk.keyOf slot i, t⟩ (after.map Tree.asDraft) with
    | some e =>
      rw [refused] at h
      rw [settle_of_refused refused]
      refine .throw_bind ?_
      rw [List.append_nil]
      exact h.cut ys
    | none =>
      rw [refused] at h
      obtain ⟨x, settled⟩ := settle_of_admitted (σ := σ × List (Encounter α)) refused
      rw [settled, pure_bind]
      refine rest.andThen (fun e part' h' => h.append h' cross) fun y part' h' => .pure ?_
      rw [List.append_nil]
      exact h.append h' cross

theorem slots_course (c : Context (Numbered α)) {owner : Tree (Numbered α)} (fits : owner.Fits)
    {fields : List (Slot × List (Tree (Numbered α)))} (own : ∀ f ∈ fields, f ∈ owner.fields)
    (each : ∀ x ∈ fields.flatMap (c.belowIn owner), TakesCourse least step x)
    (apart : (fields.flatMap (c.belowIn owner)).Pairwise fun x y => Apart x.1.path y.1.path) :
    Notes least (Walk.slots step c owner fields)
      fun r part => Course (fields.flatMap (c.belowIn owner)) (stoppedBy r) part := by
  induction fields with
  | nil => exact .pure .nil
  | cons f fields ih =>
    rw [List.forall_mem_cons] at own
    rw [List.flatMap_cons] at each apart ⊢
    rw [List.forall_mem_append] at each
    obtain ⟨here, apart, cross⟩ := List.pairwise_append.1 apart
    have seats : ∀ y ∈ f.2.zipIdx, (c.inSlot owner f.1 f.2 y.2).seat? =
        some ⟨owner.kind, f.1, Walk.keyOf f.1 y.2, y.1⟩ := fun y hy =>
      Context.seat_inSlot fits own.1 c (List.mem_zipIdx_iff_getElem?.1 hy)
    have first := items_course owner.kind f.1 (c.inSlot owner f.1 f.2) rfl seats each.1 here
    rw [Walk.slots]
    refine first.andThen (fun e part h => h.cut _) fun kept part h => ?_
    refine (ih own.2 each.2 apart).andThen (fun e part' h' => h.append h' cross)
      fun kept' part' h' => .pure ?_
    rw [List.append_nil]
    exact h.append h' cross

theorem children_course (c : Context (Numbered α)) {t : Tree (Numbered α)} (fits : t.Fits)
    (each : ∀ x ∈ c.below t, TakesCourse least step x) :
    Notes least (Walk.children step c t) fun r part =>
      Course (c.below t) (stoppedBy r) part ∧ ∀ u, r = .ok u → u.kind = t.kind := by
  have slots := slots_course c fits (fun f hf => hf) each (c.below_apart fits)
  refine slots.andThen (fun e part h => ⟨h, nofun⟩) fun x part h => ?_
  obtain ⟨contents, edited⟩ := x
  cases edited with
  | true =>
    refine .rebuild fun u kind => ?_
    rw [List.append_nil]
    exact ⟨h, fun v hv => Except.ok.inj hv ▸ kind⟩
  | false =>
    refine .pure ?_
    rw [List.append_nil]
    exact ⟨h, fun v hv => Except.ok.inj hv ▸ rfl⟩

end

section
variable (hooks : Hooks σ α) {least : Nat}

/-- The call of the leaving hook ends the visit just if the node is refused. -/
theorem leave_course {c : Context (Numbered α)} {t u : Tree (Numbered α)} (seated : Seated c t)
    (old : t.id < least) (kind : u.kind = t.kind) :
    Notes least (Walk.leave hooks.noted c u) fun r part =>
      ∃ a, part = [⟨⟨true, c, u⟩, a⟩] ∧
        Encounter.ends ⟨⟨true, c, u⟩, a⟩ = c.verdict r := by
  refine .call_bind fun s => ?_
  have own := congrArg (Option.map Stop.failed) (seated.refusal_eq_none kind)
  generalize (hooks.leave c u s).1 = a
  cases a with
  | keep => exact .pure ⟨_, rfl, own.symm⟩
  | skip => exact .pure ⟨_, rfl, own.symm⟩
  | remove => exact .pure ⟨_, rfl, rfl⟩
  | replace r =>
    refine .adopt_bind r fun next le => .pure ⟨_, rfl, ?_⟩
    exact congrArg (Option.map Stop.failed)
      (seated.refusal_adopt (Nat.lt_of_lt_of_le old le) r).symm
  | stop => exact .throw ⟨_, rfl, rfl⟩
  | fail message => exact .throw ⟨_, rfl, rfl⟩

/-- The calls in the visit of a node are a course, if no entering hook replaces a node. -/
theorem node_course (stays : ∀ c t s r, (hooks.enter c t s).1 ≠ .replace r) {depth : Nat}
    {c : Context (Numbered α)} {t : Tree (Numbered α)} (deep : t.height ≤ depth)
    (formed : t.WellFormed) (old : ∀ n ∈ walkOf [(c, t)], n.2.id < least) (seated : Seated c t) :
    TakesCourse least (Walk.node hooks.noted depth) (c, t) := by
  induction depth generalizing c t with
  | zero =>
    cases t
    exact absurd deep (Nat.not_succ_le_zero _)
  | succ depth ih =>
    rw [walkOf_cons, List.forall_mem_cons, List.forall_mem_append] at old
    obtain ⟨here, older, -⟩ := old
    have inner : ∀ x ∈ c.below t, TakesCourse least (Walk.node hooks.noted depth) x := by
      intro x hx
      have lower := Nat.le_of_lt_succ (Nat.lt_of_lt_of_le (Context.height_below hx) deep)
      refine ih lower (formed.child x hx) (fun n hn => older n ?_) (.below formed.fits hx)
      exact List.mem_flatMap.2 ⟨x, hx, by simpa [walkOf] using hn⟩
    rw [TakesCourse, Walk.node]
    refine .call_bind fun s => ?_
    have stays := stays c t s
    generalize (hooks.enter c t s).1 = a at stays
    have alone : a ≠ .keep → Course [(c, t)] (Encounter.ends ⟨⟨false, c, t⟩, a⟩)
        [⟨⟨false, c, t⟩, a⟩] :=
      fun refrains => Course.alone (k := ⟨⟨false, c, t⟩, a⟩) rfl refrains stays
    cases a with
    | keep =>
      refine (children_course c formed.fits inner).andThen (fun e part h => ?_) fun u part h => ?_
      · have stopped := h.1.enclose (k := ⟨⟨false, c, t⟩, .keep⟩) rfl rfl (.cut e)
        rwa [List.append_nil] at stopped
      · refine (leave_course hooks seated here (h.2 u rfl)).mono ?_
        rintro r _ ⟨a, rfl, ends⟩
        rw [← ends]
        exact h.1.enclose (k := ⟨⟨false, c, t⟩, .keep⟩) rfl rfl (.leave rfl rfl)
    | skip =>
      refine .pure ?_
      have own := congrArg (Option.map Stop.failed) (seated.refusal_eq_none rfl)
      rw [Context.verdict, Option.map_some, own]
      exact alone (by simp)
    | remove => exact .pure (alone (by simp))
    | replace r => exact absurd rfl (stays r)
    | stop => exact .throw (alone (by simp))
    | fail message => exact .throw (alone (by simp))

end

/-! ## The visit -/

/-- What the visit of a root gives back if it is stopped: the root if a hook breaks it
off, and otherwise the error. -/
def Stop.outcome (root : Tree α) : Stop → Except VisitError (Tree α)
  | .broken => .ok root
  | .failed e => .error e

theorem visitOutcome_of_stopped {root : Tree (Numbered α)}
    {r : Except Stop (Option (Tree (Numbered α)))} {s : Stop}
    (h : Context.root.verdict r = some s) : visitOutcome root r = s.outcome root := by
  cases r with
  | error e =>
    obtain rfl : e = s := Option.some.inj h
    cases e <;> rfl
  | ok after =>
    cases after with
    | none =>
      obtain rfl : Stop.failed .removedRoot = s := Option.some.inj h
      rfl
    | some t => exact nomatch h

theorem visitOutcome_of_running {root : Tree (Numbered α)}
    {r : Except Stop (Option (Tree (Numbered α)))} (h : Context.root.verdict r = none) :
    ∃ t, visitOutcome root r = .ok t := by
  cases r with
  | error e => exact nomatch h
  | ok after =>
    cases after with
    | none => exact nomatch h
    | some t => exact ⟨t, rfl⟩

/-- The rules that the calls of a visit of the root keep to, and what the visit gives
back. -/
structure Disciplined (root : Tree (Numbered α)) (calls : List (Encounter α))
    (result : Except VisitError (Tree (Numbered α))) : Prop where
  /-- The calls go along the way through the tree: into a node, to its children in the
  order of the slots, and out of the node before they go to its next sibling. -/
  order : (calls.map Encounter.waypoint).Sublist (root.itinerary [])
  /-- No node is entered or left twice. -/
  once : (calls.map Encounter.waypoint).Nodup
  atMostTwo : calls.length ≤ 2 * root.nodes.length
  /-- The nodes that are entered are those of the walk through the tree up to some node,
  without those below a node that was skipped or removed. -/
  entered : enteredNodes calls <+: root.nodes.filter fun n => !leftOut calls n.1
  complete : (∀ k ∈ calls, k.ends = none) →
    enteredNodes calls = root.nodes.filter fun n => !leftOut calls n.1
  /-- A node is left just if its entering hook let the visit go on and the visit did not
  end below it. -/
  bracketed : ∀ k ∈ calls, k.leaving = false → k.Bracketed calls
  opened : ∀ j ∈ calls, j.leaving = true →
    ∃ k ∈ calls, k.leaving = false ∧ k.place.path = j.place.path
  /-- When a node has been left, nothing is called at it or below it. -/
  after : calls.Pairwise fun k j => k.leaving = true → ¬ k.place.path <+: j.place.path
  /-- A call that ends the visit is the last one and decides what the visit gives back. -/
  stops : ∀ k ∈ calls, ∀ s, k.ends = some s → calls.getLast? = some k ∧ result = s.outcome root
  finishes : (∀ k ∈ calls, k.ends = none) → ∃ t, result = .ok t

/-- A course through the whole tree keeps to the rules. -/
theorem Course.disciplined {root : Tree (Numbered α)} (formed : root.WellFormed)
    {r : Except Stop (Option (Tree (Numbered α)))} {calls : List (Encounter α)}
    (h : Course [(.root, root)] (Context.root.verdict r) calls) :
    Disciplined root calls (visitOutcome root r) := by
  have way := itineraryOf_root root
  have walk := walkOf_root root
  have nodup : (root.itinerary []).Nodup :=
    way ▸ nodup_itineraryOf (List.forall_mem_singleton.2 formed) (List.pairwise_singleton _ _)
  have order := way ▸ h.order
  have length := order.length_le
  rw [← way, length_itineraryOf, walk, List.length_map] at length
  refine ⟨order, nodup.sublist order, length, walk ▸ h.entered, fun goes => ?_, h.bracketed,
    h.opened, h.after, fun k hk s ends => ?_, fun goes => ?_⟩
  · rw [← walk]
    exact h.complete (h.ended.eq_none goes)
  · obtain ⟨verdict, last⟩ := h.ended.of_ends hk ends
    exact ⟨last, visitOutcome_of_stopped verdict⟩
  · exact visitOutcome_of_running (h.ended.eq_none goes)

/-- The hooks of a visit are called as they should be, whatever they remember and answer,
if no entering hook replaces a node. At most two calls are made for each node. The nodes
are entered in the order of the walk through the tree, without exactly those below a node
that was skipped or removed. A node is left just if its entering hook said to keep it and
all below it was done, after all calls below it and before those at its later siblings.
When a hook breaks the visit off or fails, or what it wants is refused, no hook is called
again, and the visit gives back the root, that error or the refusal. -/
theorem visit_disciplined (hooks : Hooks σ α) (depth next : Nat) (root : Tree (Numbered α))
    (state : σ) (hroot : root.WellFormed) (hids : ∀ i ∈ root.ids, i < next)
    (hdepth : root.height ≤ depth) (stays : ∀ c t s r, (hooks.enter c t s).1 ≠ .replace r) :
    Disciplined root (hooks.encounters depth next root state)
      (visit hooks depth next root state).1 := by
  have old : ∀ n ∈ walkOf [(Context.root, root)], n.2.id < next := by
    intro n hn
    rw [walkOf_root] at hn
    exact hids n.2.id (List.mem_map_of_mem hn)
  have seated : Seated .root root := fun s hs => nomatch hs
  obtain ⟨r, s', calls, next', run, -, course⟩ :=
    node_course hooks stays hdepth hroot old seated state [] next (Nat.le_refl next)
  rw [← (visit_noted hooks depth next root state).1, Hooks.encounters, visit_eq, run]
  exact course.disciplined hroot

/-! ## A visit that is refused an edit -/

/-- Takes out nulls, does not look into lists inside the root, and wants a name in the
place of an integer. Counts the calls. -/
def trimList : Hooks Nat Unit where
  enter c t := fun n =>
    (if t.kind = .nullValue then .remove
      else if t.kind = .listValue ∧ c.path ≠ [] then .skip else .keep, n + 1)
  leave _ t := fun n =>
    (if t.kind = .intValue then .replace (Name.mk "one" ()).toTree.fresh else .keep, n + 1)

/-- The list of null, of a list, of an integer and of another null. -/
def crowdedList : Tree (Numbered Unit) :=
  numberedList [.null (), .list [.int "2" ()] (), .int "1" (), .null ()]

/-- The visit enters the first three items, leaves the third, and ends there. -/
theorem trimList_disciplined :
    Disciplined crowdedList (trimList.encounters 3 6 crowdedList 0)
        (visit trimList 3 6 crowdedList 0).1 ∧
      (trimList.encounters 3 6 crowdedList 0).map Encounter.waypoint =
        [(false, []), (false, [.field "values", .index 0]), (false, [.field "values", .index 1]),
          (false, [.field "values", .index 2]), (true, [.field "values", .index 2])] ∧
      (visit trimList 3 6 crowdedList 0).1 =
        .error (.invalidReplacement (.index 2) .value .name) := by
  have formed : crowdedList.WellFormed := Tree.wellFormed_numbered (Value.wellFormed_toTree _)
  have stays : ∀ c t s r, (trimList.enter c t s).1 ≠ .replace r := by
    intro c t s r
    rw [trimList]
    dsimp only
    split
    · exact nofun
    · split <;> exact nofun
  exact ⟨visit_disciplined trimList 3 6 crowdedList 0 formed (by decide) (by decide) stays,
    by decide +kernel, rfl⟩

end QueryDoc
