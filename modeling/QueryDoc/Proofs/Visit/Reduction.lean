import QueryDoc.Proofs.Visit.Agreement
import QueryDoc.Proofs.Visit.Placement
import Mathlib.Algebra.Ring.Nat

/-!
# What a reduction hands on

The calls of a reduction are written down with what the hooks were given and what
they answered. Every value that a hook makes for a node goes to the leaving hook of
the node above it, once and under the key of its slot. For the paths of the nodes are
apart, so that values are told from each other by the paths at which they were made.
-/
namespace QueryDoc

variable {σ α β γ κ ρ : Type}

/-- A call of a hook of a reduction, with its answer. -/
inductive Turn (α ρ : Type) where
  | entry (place : Context α) (node : Tree α) (answer : ReduceAction ρ)
  | exit (place : Context α) (node : Tree α) (values : Reduced ρ) (answer : Except String ρ)

namespace Turn

def place : Turn α ρ → Context α
  | entry place _ _ => place
  | exit place _ _ _ => place

/-- The value that the call made for its node. -/
def output : Turn α ρ → Option ρ
  | entry _ _ (.use v) => some v
  | exit _ _ _ (.ok v) => some v
  | _ => none

/-- The call left its node out. -/
def omits : Turn α ρ → Bool
  | entry _ _ .omit => true
  | _ => false

end Turn

/-- The reducer that writes down its calls. -/
def Reducer.noted (r : Reducer σ α ρ) : Reducer (σ × List (Turn α ρ)) α ρ where
  enter c t := noting (fun a => .entry c t a) (r.enter c t)
  leave c t values := noting (fun a => .exit c t values a) (r.leave c t values)

/-- The calls of a reduction, in order. -/
def Reducer.turns (r : Reducer σ α ρ) (root : Tree α) (state : σ) : List (Turn α ρ) :=
  (reduce r.noted root (state, [])).2.2

/-- The values made at a path, in order. -/
def outputsAt (log : List (Turn α ρ)) (path : List PathKey) : List ρ :=
  (log.filter fun e => e.place.path = path).filterMap Turn.output

/-- The values made at some places, in the order of the places. -/
def outputsFrom (log : List (Turn α ρ)) (places : List (Context α × Tree α)) : List ρ :=
  places.flatMap fun x => outputsAt log x.1.path

/-- At most one value was made at the path, and one if no node was left out. -/
def MadeOnce (log : List (Turn α ρ)) (path : List PathKey) : Prop :=
  (outputsAt log path).length ≤ 1 ∧
    ((∀ e ∈ log, e.omits = false) → (outputsAt log path).length = 1)

/-- The values given for the children of a node are those that were made for them: in
the order of the slots, a list for a slot that holds a list, and otherwise an entry if
there is a value. -/
structure Received (log : List (Turn α ρ)) (c : Context α) (t : Tree α) (values : Reduced ρ) :
    Prop where
  fields : values.fields = t.fields.flatMap fun f =>
    match f.1.arity with
    | .many => [(f.1.key, .list (outputsFrom log (c.belowIn t f)))]
    | _ => (outputsFrom log (c.belowIn t f)).map fun v => (f.1.key, .one v)
  once : ∀ x ∈ c.below t, MadeOnce log x.1.path

/-- If the call leaves a node, it was given the values of the children. -/
def Turn.Fair (log : List (Turn α ρ)) : Turn α ρ → Prop
  | entry _ _ _ => True
  | exit c t values _ => Received log c t values

/-! ## Logs put together -/

section
variable {log log' : List (Turn α ρ)} {path : List PathKey}

theorem outputsAt_append (log log' : List (Turn α ρ)) (path : List PathKey) :
    outputsAt (log ++ log') path = outputsAt log path ++ outputsAt log' path := by
  rw [outputsAt, List.filter_append, List.filterMap_append]; rfl

theorem outputsAt_eq_nil (h : ∀ e ∈ log, e.place.path ≠ path) : outputsAt log path = [] := by
  have none : log.filter (fun e => e.place.path = path) = [] := by
    refine List.filter_eq_nil_iff.2 fun e he same => ?_
    rw [decide_eq_true_eq] at same
    exact h e he same
  rw [outputsAt, none, List.filterMap_nil]

theorem outputsAt_singleton (e : Turn α ρ) : outputsAt [e] e.place.path = e.output.toList := by
  rw [outputsAt, List.filter_singleton, decide_eq_true rfl]
  cases h : e.output with
  | none => exact List.filterMap_cons_none h
  | some v => exact List.filterMap_cons_some h

theorem outputsFrom_append (log : List (Turn α ρ)) (xs ys : List (Context α × Tree α)) :
    outputsFrom log (xs ++ ys) = outputsFrom log xs ++ outputsFrom log ys := List.flatMap_append

theorem outputsFrom_singleton (log : List (Turn α ρ)) (x : Context α × Tree α) :
    outputsFrom log [x] = outputsAt log x.1.path := List.flatMap_singleton ..

/-- Nothing was called at the path or below it. -/
def Calm (path : List PathKey) (log : List (Turn α ρ)) : Prop :=
  ∀ e ∈ log, ¬ path <+: e.place.path

theorem Calm.nil (path : List PathKey) : Calm path ([] : List (Turn α ρ)) :=
  fun _ he => absurd he List.not_mem_nil

theorem Calm.mono (h : Calm path log) {q : List PathKey} (hq : path <+: q) : Calm q log :=
  fun e he under => h e he (hq.trans under)

theorem Calm.outputsAt_eq_nil (h : Calm path log) {q : List PathKey} (hq : path <+: q) :
    outputsAt log q = [] :=
  QueryDoc.outputsAt_eq_nil fun e he same => h e he (same ▸ hq)

/-- What was made at a path is not changed by calls elsewhere. -/
theorem Calm.outputsAt_eq {before after : List (Turn α ρ)} (hb : Calm path before)
    (ha : Calm path after) {q : List PathKey} (hq : path <+: q) :
    outputsAt (before ++ (log ++ after)) q = outputsAt log q := by
  rw [outputsAt_append, outputsAt_append, hb.outputsAt_eq_nil hq, ha.outputsAt_eq_nil hq,
    List.nil_append, List.append_nil]

theorem Calm.outputsFrom_eq {before after : List (Turn α ρ)} {xs : List (Context α × Tree α)}
    (hb : ∀ x ∈ xs, Calm x.1.path before) (ha : ∀ x ∈ xs, Calm x.1.path after) :
    outputsFrom (before ++ (log ++ after)) xs = outputsFrom log xs :=
  List.flatMap_congr fun x hx => (hb x hx).outputsAt_eq (ha x hx) List.prefix_rfl

theorem Calm.madeOnce {before after : List (Turn α ρ)} (hb : Calm path before)
    (ha : Calm path after) {q : List PathKey} (hq : path <+: q) (h : MadeOnce log q) :
    MadeOnce (before ++ (log ++ after)) q := by
  rw [MadeOnce, hb.outputsAt_eq ha hq]
  refine ⟨h.1, fun kept => h.2 fun e he => kept e ?_⟩
  exact List.mem_append_right before (List.mem_append_left after he)

theorem Context.path_prefix_below {c : Context α} {t : Tree α} {x : Context α × Tree α}
    (hx : x ∈ c.below t) : c.path <+: x.1.path := by
  obtain ⟨f, -, i, -, place⟩ := mem_below hx
  rw [place, path_inSlot]
  split <;> exact List.prefix_append _ _

theorem Context.mem_below_of_slot {c : Context α} {t : Tree α} {f : Slot × List (Tree α)}
    (hf : f ∈ t.fields) {x : Context α × Tree α} (hx : x ∈ c.belowIn t f) : x ∈ c.below t :=
  List.mem_flatMap.2 ⟨f, hf, hx⟩

/-- What a hook was given is still right when more calls are written down elsewhere. -/
theorem Turn.Fair.extend {before after : List (Turn α ρ)} {e : Turn α ρ} (h : e.Fair log)
    (hb : Calm e.place.path before) (ha : Calm e.place.path after) :
    e.Fair (before ++ (log ++ after)) := by
  cases e with
  | entry c t answer => trivial
  | exit c t values answer =>
    have deeper := fun x (hx : x ∈ c.below t) => Context.path_prefix_below hx
    refine ⟨h.fields.trans (List.flatMap_congr fun f hf => ?_), fun x hx => ?_⟩
    · have inside := fun x (hx : x ∈ c.belowIn t f) => deeper x (Context.mem_below_of_slot hf hx)
      have same : outputsFrom (before ++ (log ++ after)) (c.belowIn t f) =
          outputsFrom log (c.belowIn t f) :=
        Calm.outputsFrom_eq (fun x hx => hb.mono (inside x hx)) fun x hx => ha.mono (inside x hx)
      rw [same]
    · exact hb.madeOnce ha (deeper x hx) (h.once x hx)

end

theorem Apart.symm {p q : List PathKey} (h : Apart p q) : Apart q p :=
  fun r hq hp => h r hp hq

/-- Calls at or below some places, in which leaving hooks were given what they should. -/
structure Orderly (xs : List (Context α × Tree α)) (part : List (Turn α ρ)) : Prop where
  within : ∀ e ∈ part, ∃ x ∈ xs, x.1.path <+: e.place.path
  fair : ∀ e ∈ part, e.Fair part

namespace Orderly
variable {xs ys : List (Context α × Tree α)} {part part' : List (Turn α ρ)}

theorem nil : Orderly xs ([] : List (Turn α ρ)) :=
  ⟨fun _ he => absurd he List.not_mem_nil, fun _ he => absurd he List.not_mem_nil⟩

theorem mono (h : Orderly xs part) (sub : xs ⊆ ys) : Orderly ys part := by
  refine ⟨fun e he => ?_, h.fair⟩
  obtain ⟨x, hx, under⟩ := h.within e he
  exact ⟨x, sub hx, under⟩

/-- Elsewhere nothing was called. -/
theorem calm (h : Orderly xs part) {q : List PathKey} (apart : ∀ x ∈ xs, Apart x.1.path q) :
    Calm q part := by
  intro e he under
  obtain ⟨x, hx, here⟩ := h.within e he
  exact apart x hx e.place.path here under

/-- Calls at places that are apart. -/
theorem append (h : Orderly xs part) (h' : Orderly ys part')
    (apart : ∀ x ∈ xs, ∀ y ∈ ys, Apart x.1.path y.1.path) :
    Orderly (xs ++ ys) (part ++ part') := by
  constructor
  · exact List.forall_mem_append.2
      ⟨(h.mono (List.subset_append_left xs ys)).within,
        (h'.mono (List.subset_append_right xs ys)).within⟩
  · refine List.forall_mem_append.2 ⟨fun e he => ?_, fun e he => ?_⟩
    · obtain ⟨x, hx, under⟩ := h.within e he
      have after : Calm e.place.path part' :=
        (h'.calm fun y hy => (apart x hx y hy).symm).mono under
      have fair : e.Fair ([] ++ (part ++ part')) := (h.fair e he).extend (.nil _) after
      exact fair
    · obtain ⟨y, hy, under⟩ := h'.within e he
      have before : Calm e.place.path part := (h.calm fun x hx => apart x hx y hy).mono under
      have fair : e.Fair (part ++ (part' ++ [])) := (h'.fair e he).extend before (.nil _)
      rwa [List.append_nil] at fair

/-- Calls at the children of a node stand at longer paths. -/
theorem deeper {c : Context α} {t : Tree α} (h : Orderly (c.below t) part) (fits : t.Fits) :
    ∀ e ∈ part, ∃ key steps, e.place.path = c.path ++ key :: steps := by
  intro e he
  obtain ⟨x, hx, rest, hrest⟩ := h.within e he
  obtain ⟨key, steps, path, -⟩ := Context.exists_steps fits hx
  rw [← hrest, path, List.append_assoc]
  exact ⟨key, steps ++ rest, rfl⟩

/-- The calls at a node, and between them those at its children. -/
theorem enclose {c : Context α} {t : Tree α} (h : Orderly (c.below t) part) (fits : t.Fits)
    {before after : List (Turn α ρ)} (hb : ∀ e ∈ before, e.place = c)
    (ha : ∀ e ∈ after, e.place = c)
    (fair : ∀ e ∈ before ++ after, e.Fair (before ++ (part ++ after))) :
    Orderly [(c, t)] (before ++ (part ++ after)) := by
  have under := h.deeper fits
  -- a call at the node itself is not below any of the places of the children
  have above : ∀ e ∈ part, ∀ log : List (Turn α ρ), (∀ k ∈ log, k.place = c) →
      Calm e.place.path log := by
    intro e he log here k hk below
    obtain ⟨key, steps, path⟩ := under e he
    have length := below.length_le
    rw [here k hk, path, List.length_append, List.length_cons] at length
    omega
  constructor
  · have here : ∀ e : Turn α ρ, e.place = c → c.path <+: e.place.path :=
      fun e he => he ▸ List.prefix_rfl
    intro e he
    refine ⟨(c, t), List.mem_singleton_self _, ?_⟩
    rcases List.mem_append.1 he with he | he
    · exact here e (hb e he)
    · rcases List.mem_append.1 he with he | he
      · obtain ⟨key, steps, path⟩ := under e he
        rw [path]
        exact List.prefix_append _ _
      · exact here e (ha e he)
  · intro e he
    rcases List.mem_append.1 he with he | he
    · exact fair e (List.mem_append_left after he)
    · rcases List.mem_append.1 he with he | he
      · exact (h.fair e he).extend (above e he before hb) (above e he after ha)
      · exact fair e (List.mem_append_right before he)

theorem outputsFrom_left (h' : Orderly ys part')
    (apart : ∀ x ∈ xs, ∀ y ∈ ys, Apart x.1.path y.1.path) :
    outputsFrom (part ++ part') xs = outputsFrom part xs := by
  have same : outputsFrom ([] ++ (part ++ part')) xs = outputsFrom part xs :=
    Calm.outputsFrom_eq (fun x _ => .nil _) fun x hx => h'.calm fun y hy => (apart x hx y hy).symm
  exact same

theorem outputsFrom_right (h : Orderly xs part)
    (apart : ∀ x ∈ xs, ∀ y ∈ ys, Apart x.1.path y.1.path) :
    outputsFrom (part ++ part') ys = outputsFrom part' ys := by
  have same : outputsFrom (part ++ (part' ++ [])) ys = outputsFrom part' ys :=
    Calm.outputsFrom_eq (fun y hy => h.calm fun x hx => apart x hx y hy) fun y _ => .nil _
  rwa [List.append_nil] at same

end Orderly

/-- All of the places were called at and each of them made its value. -/
structure Complete (xs : List (Context α × Tree α)) (part : List (Turn α ρ)) : Prop extends
    Orderly xs part where
  made : ∀ x ∈ xs, MadeOnce part x.1.path

namespace Complete
variable {xs ys : List (Context α × Tree α)} {part part' : List (Turn α ρ)}

theorem append (h : Complete xs part) (h' : Complete ys part')
    (apart : ∀ x ∈ xs, ∀ y ∈ ys, Apart x.1.path y.1.path) :
    Complete (xs ++ ys) (part ++ part') := by
  refine ⟨h.toOrderly.append h'.toOrderly apart, ?_⟩
  rw [List.forall_mem_append]
  refine ⟨fun x hx => ?_, fun y hy => ?_⟩
  · have after := h'.calm fun y hy => (apart x hx y hy).symm
    have made : MadeOnce ([] ++ (part ++ part')) x.1.path :=
      Calm.madeOnce (.nil _) after List.prefix_rfl (h.made x hx)
    exact made
  · have before := h.calm fun x hx => apart x hx y hy
    have made : MadeOnce (part ++ (part' ++ [])) y.1.path :=
      Calm.madeOnce before (.nil _) List.prefix_rfl (h'.made y hy)
    rwa [List.append_nil] at made

end Complete

/-! ## The calls of a reduction -/

namespace Reduction

/-- A reduction whose hooks write down their calls runs as the reduction does, and `P`
holds of the outcome and the calls. -/
def Writes (m' : Walk (σ × List κ) β) (m : Walk σ β) (P : Except Stop β → List κ → Prop) : Prop :=
  ∀ s log, ∃ calls, P (m.run s).1 calls ∧
    m'.run (s, log) = ((m.run s).1, ((m.run s).2, log ++ calls))

namespace Writes

theorem pure {x : β} {P : Except Stop β → List κ → Prop} (h : P (.ok x) []) :
    Writes (return x : Walk (σ × List κ) β) (return x) P :=
  fun s log => ⟨[], h, by rw [List.append_nil]; rfl⟩

theorem throw {e : Stop} {P : Except Stop β → List κ → Prop} (h : P (.error e) []) :
    Writes (MonadExcept.throw e : Walk (σ × List κ) β) (MonadExcept.throw e) P :=
  fun s log => ⟨[], h, by rw [List.append_nil]; rfl⟩

theorem andThen {m' : Walk (σ × List κ) β} {m : Walk σ β} {f' : β → Walk (σ × List κ) γ}
    {f : β → Walk σ γ} {P : Except Stop β → List κ → Prop}
    {Q : β → Except Stop γ → List κ → Prop} {R : Except Stop γ → List κ → Prop}
    (hm : Writes m' m P) (hf : ∀ x, Writes (f' x) (f x) (Q x))
    (stops : ∀ e calls, P (.error e) calls → R (.error e) calls)
    (goes : ∀ x r calls calls', P (.ok x) calls → Q x r calls' → R r (calls ++ calls')) :
    Writes (m' >>= f') (m >>= f) R := by
  intro s log
  obtain ⟨calls, holds, run⟩ := hm s log
  rw [walk_bind, walk_bind, run]
  generalize m.run s = a at *
  obtain ⟨o, s₁⟩ := a
  cases o with
  | error e => exact ⟨calls, stops e calls holds, rfl⟩
  | ok x =>
    obtain ⟨calls', holds', run'⟩ := hf x s₁ (log ++ calls)
    refine ⟨calls ++ calls', goes x _ calls calls' holds holds', ?_⟩
    rw [← List.append_assoc]
    exact run'

theorem andReturn {m' : Walk (σ × List κ) β} {m : Walk σ β} {f : β → γ}
    {P : Except Stop β → List κ → Prop} {R : Except Stop γ → List κ → Prop}
    (hm : Writes m' m P) (stops : ∀ e calls, P (.error e) calls → R (.error e) calls)
    (goes : ∀ x calls, P (.ok x) calls → R (.ok (f x)) calls) :
    Writes (m' >>= fun x => return f x) (m >>= fun x => return f x) R := by
  refine hm.andThen (Q := fun x r calls => r = .ok (f x) ∧ calls = [])
    (fun x => .pure ⟨rfl, rfl⟩) stops ?_
  rintro x _ calls _ holds ⟨rfl, rfl⟩
  rw [List.append_nil]
  exact goes x calls holds

/-- A call of a hook comes first in what is written down. -/
theorem call_bind {m : StateM σ β} {entry : β → κ} {f' : β → Walk (σ × List κ) γ}
    {f : β → Walk σ γ} {P : Except Stop γ → List κ → Prop}
    (h : ∀ a, Writes (f' a) (f a) fun r calls => P r (entry a :: calls)) :
    Writes (liftM (noting entry m) >>= f') (liftM m >>= f) P := by
  intro s log
  obtain ⟨calls, holds, run⟩ := h (m s).1 (m s).2 (log ++ [entry (m s).1])
  refine ⟨entry (m s).1 :: calls, holds, ?_⟩
  rw [List.append_cons]
  exact run

end Writes

section
variable {r : Reducer σ α ρ}

/-- What the calls at a node and below it come to. -/
def Reports (r : Reducer σ α ρ) (t : Tree α) : Prop :=
  ∀ c, Writes (node r.noted c t) (node r c t) fun x part =>
    Orderly [(c, t)] part ∧
      ∀ v, x = .ok v → MadeOnce part c.path ∧ v.toList = outputsAt part c.path

/-- A walk that is broken off has no result, so that nothing is asked of one. -/
theorem stopped {e : Stop} {P : β → Prop} (v : β)
    (h : (Except.error e : Except Stop β) = .ok v) : P v := by
  cases h

theorem items_report (place : Nat → Context α) {ts : List (Tree α)}
    (h : ∀ t ∈ ts, Reports r t) {i : Nat} {xs : List (Context α × Tree α)}
    (hxs : (ts.zipIdx i).map (fun x => (place x.2, x.1)) = xs)
    (apart : xs.Pairwise fun x y => Apart x.1.path y.1.path) :
    Writes (items r.noted place i ts) (items r place i ts) fun x part =>
      Orderly xs part ∧ ∀ vs, x = .ok vs → Complete xs part ∧ vs = outputsFrom part xs := by
  induction ts generalizing i xs with
  | nil =>
    obtain rfl : [] = xs := hxs
    rw [items, items]
    refine .pure ⟨.nil, fun vs hvs => ⟨⟨.nil, fun _ hx => absurd hx List.not_mem_nil⟩, ?_⟩⟩
    exact (Except.ok.inj hvs).symm
  | cons t ts ih =>
    rw [List.forall_mem_cons] at h
    rw [List.zipIdx_cons, List.map_cons] at hxs
    generalize hys : (ts.zipIdx (i + 1)).map (fun x => (place x.2, x.1)) = ys at *
    subst hxs
    obtain ⟨first, apart⟩ := List.pairwise_cons.1 apart
    have cross : ∀ x ∈ [(place i, t)], ∀ y ∈ ys, Apart x.1.path y.1.path :=
      List.forall_mem_singleton.2 first
    rw [items, items]
    refine (h.1 (place i)).andThen (fun v => (ih h.2 hys apart).andReturn
      (R := fun x part => Orderly ys part ∧ ∀ vs, x = .ok vs → Complete ys part ∧
        vs = v.toList ++ outputsFrom part ys) (fun e calls h => ⟨h.1, stopped⟩) ?_) ?_ ?_
    · rintro vs calls ⟨orderly, done⟩
      obtain ⟨complete, values⟩ := done vs rfl
      refine ⟨orderly, fun ws hws => ⟨complete, ?_⟩⟩
      rw [← Except.ok.inj hws, values]
    · rintro e part ⟨orderly, -⟩
      exact ⟨orderly.mono (List.subset_append_left [(place i, t)] ys), stopped⟩
    · rintro v x part part' ⟨orderly, made⟩ ⟨orderly', done⟩
      obtain ⟨once, value⟩ := made v rfl
      have one : Complete [(place i, t)] part := ⟨orderly, List.forall_mem_singleton.2 once⟩
      refine ⟨orderly.append orderly' cross, fun vs hvs => ?_⟩
      obtain ⟨complete, values⟩ := done vs hvs
      refine ⟨one.append complete cross, ?_⟩
      rw [← List.singleton_append, outputsFrom_append, orderly'.outputsFrom_left cross,
        orderly.outputsFrom_right cross, outputsFrom_singleton, values, value]

theorem slots_report (c : Context α) (owner : Tree α) {rules : List Slot}
    {slots : List (List (Tree α))} (h : ∀ ts ∈ slots, ∀ t ∈ ts, Reports r t)
    {fields : List (Slot × List (Tree α))} (hfields : rules.zip slots = fields)
    (apart : (fields.flatMap (c.belowIn owner)).Pairwise fun x y => Apart x.1.path y.1.path) :
    Writes (Reduction.slots r.noted c owner rules slots) (Reduction.slots r c owner rules slots)
      fun x part => Orderly (fields.flatMap (c.belowIn owner)) part ∧
        ∀ vs, x = .ok vs → Complete (fields.flatMap (c.belowIn owner)) part ∧
          vs = fields.flatMap fun f => entry f.1 (outputsFrom part (c.belowIn owner f)) := by
  have none : ∀ vs, (Except.ok [] : Except Stop (List (String × SlotValue ρ))) = .ok vs →
      Complete ([] : List (Context α × Tree α)) ([] : List (Turn α ρ)) ∧ vs = [] :=
    fun vs hvs => ⟨⟨.nil, fun _ hx => absurd hx List.not_mem_nil⟩, (Except.ok.inj hvs).symm⟩
  induction slots generalizing rules fields with
  | nil =>
    rw [List.zip_nil_right] at hfields
    subst hfields
    rw [Reduction.slots, Reduction.slots]
    exact .pure ⟨.nil, none⟩
  | cons ts slots ih =>
    cases rules with
    | nil =>
      rw [List.zip_nil_left] at hfields
      subst hfields
      rw [Reduction.slots, Reduction.slots]
      exact .pure ⟨.nil, none⟩
    | cons rule rules =>
      rw [List.forall_mem_cons] at h
      rw [List.zip_cons_cons] at hfields
      generalize hrest : rules.zip slots = rest at *
      subst hfields
      rw [List.flatMap_cons] at apart ⊢
      obtain ⟨here, apart, cross⟩ := List.pairwise_append.1 apart
      have first := items_report (c.inSlot owner rule ts) h.1 (i := 0)
        (show _ = c.belowIn owner (rule, ts) from rfl) here
      rw [Reduction.slots, Reduction.slots]
      refine first.andThen (fun values => (ih h.2 hrest apart).andReturn
        (R := fun x part => Orderly (rest.flatMap (c.belowIn owner)) part ∧ ∀ vs, x = .ok vs →
          Complete (rest.flatMap (c.belowIn owner)) part ∧ vs = entry rule values ++
            rest.flatMap fun f => entry f.1 (outputsFrom part (c.belowIn owner f)))
        (fun e calls h => ⟨h.1, stopped⟩) ?_) ?_ ?_
      · rintro vs calls ⟨orderly, done⟩
        obtain ⟨complete, values'⟩ := done vs rfl
        refine ⟨orderly, fun ws hws => ⟨complete, ?_⟩⟩
        rw [← Except.ok.inj hws, values']
      · rintro e part ⟨orderly, -⟩
        exact ⟨orderly.mono (List.subset_append_left _ _), stopped⟩
      · rintro values x part part' ⟨orderly, made⟩ ⟨orderly', done⟩
        obtain ⟨one, value⟩ := made values rfl
        refine ⟨orderly.append orderly' cross, fun vs hvs => ?_⟩
        obtain ⟨complete, values'⟩ := done vs hvs
        refine ⟨one.append complete cross, ?_⟩
        rw [List.flatMap_cons, orderly'.outputsFrom_left cross, values', value]
        congr 1
        refine List.flatMap_congr fun f hf => ?_
        rw [orderly.outputsFrom_right fun x hx y hy =>
          cross x hx y (List.mem_flatMap.2 ⟨f, hf, hy⟩)]

/-- Calls at a node, before and after those at its children. -/
def Around (c : Context α) (log : List (Turn α ρ)) : Prop := ∀ e ∈ log, e.place = c

theorem Around.calm {c : Context α} {log : List (Turn α ρ)} (h : Around c log) {t : Tree α}
    (fits : t.Fits) {x : Context α × Tree α} (hx : x ∈ c.below t) : Calm x.1.path log := by
  intro e he under
  obtain ⟨key, steps, path, -⟩ := Context.exists_steps fits hx
  have length := under.length_le
  rw [h e he, path, List.length_append, List.length_cons] at length
  omega

/-- What the values of the slots come to for the leaving hook. -/
theorem received {c : Context α} {t : Tree α} (fits : t.Fits) {part : List (Turn α ρ)}
    (h : Complete (c.below t) part) {values : List (String × SlotValue ρ)}
    (hvalues : values = t.fields.flatMap fun f =>
      entry f.1 (outputsFrom part (c.belowIn t f)))
    {before after : List (Turn α ρ)} (hb : Around c before) (ha : Around c after) :
    Received (before ++ (part ++ after)) c t ⟨values⟩ := by
  constructor
  · rw [hvalues]
    refine List.flatMap_congr fun f hf => ?_
    have inside := fun x (hx : x ∈ c.belowIn t f) => Context.mem_below_of_slot hf hx
    have same : outputsFrom (before ++ (part ++ after)) (c.belowIn t f) =
        outputsFrom part (c.belowIn t f) :=
      Calm.outputsFrom_eq (fun x hx => hb.calm fits (inside x hx))
        fun x hx => ha.calm fits (inside x hx)
    rw [same]
    rfl
  · intro x hx
    exact (hb.calm fits hx).madeOnce (ha.calm fits hx) List.prefix_rfl (h.made x hx)

theorem node_report (r : Reducer σ α ρ) {t : Tree α} (h : t.WellFormed) : Reports r t := by
  induction t using Tree.induct with
  | node head info slots ih =>
    intro c
    have fits := h.fits
    have below := fun ts hts t ht => ih ts hts t ht (h.inner ts hts t ht)
    rw [node, node]
    refine .call_bind fun a => ?_
    generalize ht : Tree.node head info slots = t at *
    have silent : Around c ([] : List (Turn α ρ)) := fun _ he => absurd he List.not_mem_nil
    have entering : Around c [(.entry c t a : Turn α ρ)] := List.forall_mem_singleton.2 rfl
    have alone : Orderly [(c, t)] [(.entry c t a : Turn α ρ)] :=
      Orderly.enclose (.nil : Orderly (c.below t) []) fits entering silent
        (List.forall_mem_singleton.2 trivial)
    have made := outputsAt_singleton (.entry c t a : Turn α ρ)
    cases a with
    | use v =>
      refine .pure ⟨alone, fun w hw => ?_⟩
      obtain rfl : some v = w := Except.ok.inj hw
      have value : outputsAt [.entry c t (.use v)] c.path = [v] := made
      rw [MadeOnce, value]
      exact ⟨⟨Nat.le_refl 1, fun _ => rfl⟩, rfl⟩
    | «omit» =>
      refine .pure ⟨alone, fun w hw => ?_⟩
      obtain rfl : none = w := Except.ok.inj hw
      have value : outputsAt [(.entry c t .omit : Turn α ρ)] c.path = [] := made
      rw [MadeOnce, value]
      refine ⟨⟨Nat.zero_le 1, fun kept => ?_⟩, rfl⟩
      exact Bool.noConfusion (kept _ List.mem_cons_self)
    | stop => exact .throw ⟨alone, stopped⟩
    | fail message => exact .throw ⟨alone, stopped⟩
    | descend =>
      have kind : head.kind.slots.zip slots = t.fields := by rw [← ht]; rfl
      refine (slots_report c t below kind (c.below_apart fits)).andThen
        (Q := fun values x last => ∃ answer : Except String ρ,
          last = [Turn.exit c t ⟨values⟩ answer] ∧
            ∀ v, x = .ok v → ∃ w, v = some w ∧ answer = .ok w) (fun values => ?_) ?_ ?_
      · refine .call_bind fun answer => ?_
        cases answer with
        | error message => exact .throw ⟨_, rfl, stopped⟩
        | ok w => exact .pure ⟨_, rfl, fun v hv => ⟨w, (Except.ok.inj hv).symm, rfl⟩⟩
      · rintro e inner ⟨orderly, -⟩
        have around := orderly.enclose fits entering silent
          (List.forall_mem_singleton.2 trivial)
        rw [List.append_nil] at around
        exact ⟨around, stopped⟩
      · rintro values x inner _ ⟨orderly, done⟩ ⟨answer, rfl, ends⟩
        obtain ⟨complete, hvalues⟩ := done values rfl
        have leaving : Around c [Turn.exit c t ⟨values⟩ answer] :=
          List.forall_mem_singleton.2 rfl
        have fair := received fits complete hvalues entering leaving
        refine ⟨orderly.enclose fits entering leaving ?_, fun v hv => ?_⟩
        · exact List.forall_mem_cons.2 ⟨trivial, List.forall_mem_singleton.2 fair⟩
        · obtain ⟨w, rfl, rfl⟩ := ends v hv
          have last := outputsAt_singleton (Turn.exit c t ⟨values⟩ (.ok w))
          have between : outputsAt inner c.path = [] := by
            refine outputsAt_eq_nil fun e he same => ?_
            obtain ⟨key, steps, path⟩ := orderly.deeper fits e he
            rw [path] at same
            exact List.cons_ne_nil _ _ (List.self_eq_append_right.1 same.symm)
          have value : outputsAt (.entry c t .descend ::
              (inner ++ [Turn.exit c t ⟨values⟩ (.ok w)])) c.path = [w] := by
            rw [← List.singleton_append, outputsAt_append, outputsAt_append, between]
            exact congrArg₂ (fun as bs => as ++ ([] ++ bs)) made last
          rw [MadeOnce, value]
          exact ⟨⟨Nat.le_refl 1, fun _ => rfl⟩, rfl⟩

end

end Reduction

/-- Reducers that write down their calls make the same reduction. -/
theorem reduce_noted (r : Reducer σ α ρ) {root : Tree α} (h : root.WellFormed) (state : σ) :
    (reduce r.noted root (state, [])).1 = (reduce r root state).1 ∧
      (reduce r.noted root (state, [])).2.1 = (reduce r root state).2 := by
  obtain ⟨part, -, run⟩ := Reduction.node_report r h .root state []
  rw [reduce_eq, reduce_eq, run]
  exact ⟨rfl, rfl⟩

theorem turns_orderly (r : Reducer σ α ρ) {root : Tree α} (h : root.WellFormed) (state : σ) :
    Orderly [(.root, root)] (r.turns root state) := by
  obtain ⟨part, ⟨orderly, -⟩, run⟩ := Reduction.node_report r h .root state []
  rw [Reducer.turns, reduce_eq, run]
  exact orderly

/-- Where a procedure is called in a visit, in order. -/
def Decisions.visited (d : Decisions σ (Numbered α)) (depth next : Nat)
    (root : Tree (Numbered α)) (state : σ) : List (Station (Numbered α)) :=
  (visit d.noted.hooks depth next root (state, [])).2.state.2

/-- Where a procedure is called in a reduction, in order. -/
def Decisions.reduced (d : Decisions σ α) (skipped : Context α → Tree α → σ → ρ)
    (left : Context α → Tree α → Reduced ρ → σ → ρ) (root : Tree α) (state : σ) :
    List (Station α) :=
  (reduce (d.noted.reducer (fun c t s => skipped c t s.1) fun c t values s =>
    left c t values s.1) root (state, [])).2.2

/-- A visit and a reduction walk a tree in the same way. A procedure that only decides
where to go is called by both at the same places and nodes, in the same order; both
end in the same state, and both finish, are broken off or fail with the same error. In
every reduction each leaving hook is given exactly the values that were made for the
children, each once and in order: a list for every slot that holds a list, and an entry
for another slot if there is a value. -/
theorem visit_and_reduce_agree {root : Tree (Numbered α)} (hroot : root.WellFormed) :
    (∀ (σ ρ : Type) (d : Decisions σ (Numbered α))
      (skipped : Context (Numbered α) → Tree (Numbered α) → σ → ρ)
      (left : Context (Numbered α) → Tree (Numbered α) → Reduced ρ → σ → ρ)
      (depth next : Nat) (state : σ), root.height ≤ depth →
        d.visited depth next root state = d.reduced skipped left root state ∧
        (visit d.hooks depth next root state).2.state =
          (reduce (d.reducer skipped left) root state).2 ∧
        d.hooks.ending depth next root state = (d.reducer skipped left).ending root state ∧
        EndsAs root (d.hooks.ending depth next root state)
          (visit d.hooks depth next root state).1
          (reduce (d.reducer skipped left) root state).1) ∧
    (∀ (σ ρ : Type) (r : Reducer σ (Numbered α) ρ) (state : σ) (c : Context (Numbered α))
      (t : Tree (Numbered α)) (values : Reduced ρ) (answer : Except String ρ),
        .exit c t values answer ∈ r.turns root state →
          Received (r.turns root state) c t values) := by
  constructor
  · intro σ ρ d skipped left depth next state h
    have calls := (decisions_along d.noted (fun c t s => skipped c t s.1)
      (fun c t values s => left c t values s.1) next (state, []) h).1
    exact ⟨congrArg Prod.snd calls, decisions_along d skipped left next state h⟩
  · intro σ ρ r state c t values answer mem
    exact (turns_orderly r hroot state).fair _ mem

/-! ## A procedure that skips nodes -/

/-- Skips every null and counts the nodes that are left. -/
def skipNulls : Decisions Nat (Numbered Unit) where
  enter _ t := pure (if t.kind = .nullValue then .skip else .descend)
  leave _ _ := fun n => (.ok (), n + 1)

/-- The list of an integer, an empty list and a null. -/
def mixedList : Tree (Numbered Unit) := numberedList [.int "1" (), .list [] (), .null ()]

/-- In a reduction a null that is skipped counts for one hundred and a node that is left
for one more than its children. -/
def sumNulls : Reducer Nat (Numbered Unit) Nat :=
  skipNulls.reducer (fun _ _ _ => 100) fun _ _ values _ => values.values.sum + 1

/-- The visit and the reduction go the same way through the list, and its leaving hook is
given 1, 1 and 100, one value each for the three items. -/
theorem skipNulls_agree :
    skipNulls.visited 2 4 mixedList 0 =
        skipNulls.reduced (fun _ _ _ => 100) (fun _ _ values _ => values.values.sum + 1)
          mixedList 0 ∧
      skipNulls.hooks.ending 2 4 mixedList 0 = sumNulls.ending mixedList 0 ∧
      Received (sumNulls.turns mixedList 0) .root mixedList ⟨[("values", .list [1, 1, 100])]⟩ := by
  have wellFormed : mixedList.WellFormed := Tree.wellFormed_numbered (Value.wellFormed_toTree _)
  obtain ⟨alongside, received⟩ := visit_and_reduce_agree wellFormed
  obtain ⟨calls, -, ends, -⟩ := alongside Nat Nat skipNulls (fun _ _ _ => 100)
    (fun _ _ values _ => values.values.sum + 1) 2 4 0 (by decide)
  refine ⟨calls, ends, received Nat Nat sumNulls 0 .root mixedList _ (.ok 103) ?_⟩
  have last : (sumNulls.turns mixedList 0).getLast? =
      some (.exit .root mixedList ⟨[("values", .list [1, 1, 100])]⟩ (.ok 103)) := rfl
  exact List.mem_of_getLast? last

end QueryDoc
