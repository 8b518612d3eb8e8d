import QueryDoc.Proofs.Visit.Heap
import QueryDoc.Proofs.Visit.Naive

/-!
# A visit does what a naive visit does

Hooks that pay no attention to numbers are hooks with a plain counterpart: on
equal nodes in equal places, both give equal answers. They may keep nodes in
their state and bring them in later, so what the two states have to do with each
other depends on the nodes that exist.

A walk and a naive walk are run side by side. The heap grows with the walk, the
states stay related, and both end with the same stop or with outcomes that agree.
-/
namespace QueryDoc

variable {σ τ α β γ δ ε : Type}

/-- The nodes that a container is made of exist. -/
def Ancestor.Within (H : Heap α) : Ancestor (Numbered α) → Prop
  | .node t => t ∈ H
  | .list ts => ∀ t ∈ ts, t ∈ H

/-- The nodes that a context shows exist. -/
structure Context.Within (H : Heap α) (c : Context (Numbered α)) : Prop where
  parent : ∀ a ∈ c.parent, a.Within H
  ancestors : ∀ a ∈ c.ancestors, a.Within H

/-- A hook and a plain hook answer alike, and their states stay related. -/
structure Answers (rel : Heap α → σ → τ → Prop) (H : Heap α) (x : Action α × σ)
    (y : Edit α × τ) : Prop where
  answer : x.1.plain = y.1
  replacement : ∀ r, x.1 = .replace r → H.Admits r
  states : rel H x.2 y.2

/-- States that are related stay so when nodes are made. -/
def Persistent (rel : Heap α → σ → τ → Prop) : Prop :=
  ∀ ⦃H H' : Heap α⦄ ⦃s u⦄, H ≤ H' → rel H s u → rel H' s u

/-- Hooks decide as plain hooks do, whatever the numbers of the nodes. -/
structure Hooks.DecidesAs (hooks : Hooks σ α) (plain : PlainHooks τ α)
    (rel : Heap α → σ → τ → Prop) : Prop where
  mono : Persistent rel
  enter : ∀ {H : Heap α} {s u c t}, rel H s u → c.Within H → t ∈ H →
    Answers rel H (hooks.enter c t s) (plain.enter c.plain t.plain u)
  leave : ∀ {H : Heap α} {s u c t}, rel H s u → c.Within H → t ∈ H →
    Answers rel H (hooks.leave c t s) (plain.leave c.plain t.plain u)

/-- A call that is written down is the same call on both sides. -/
theorem Answers.logged {rel : Heap α → σ → τ → Prop} {H : Heap α} {m : StateM σ (Action α)}
    {m' : StateM τ (Edit α)} {s : σ × List (Call α)} {u : τ × List (Call α)}
    (h : Answers rel H (m s.1) (m' u.1)) (logs : s.2 = u.2) {entry : Action α → Call α}
    {entry' : Edit α → Call α} (same : ∀ a, entry a = entry' a.plain) :
    Answers (fun H s u => rel H s.1 u.1 ∧ s.2 = u.2) H (QueryDoc.logged entry m s)
      (QueryDoc.logged entry' m' u) := by
  refine ⟨h.answer, h.replacement, h.states, ?_⟩
  change s.2 ++ [entry (m s.1).1] = u.2 ++ [entry' (m' u.1).1]
  rw [logs, same, h.answer]

/-- Hooks that write down their calls decide as plain hooks that do. -/
theorem Hooks.DecidesAs.logged {hooks : Hooks σ α} {plain : PlainHooks τ α}
    {rel : Heap α → σ → τ → Prop} (h : hooks.DecidesAs plain rel) :
    hooks.logged.DecidesAs plain.logged fun H s u => rel H s.1 u.1 ∧ s.2 = u.2 where
  mono _ _ _ _ le r := ⟨h.mono le r.1, r.2⟩
  enter r hc ht := (h.enter r.1 hc ht).logged r.2 fun _ => rfl
  leave r hc ht := (h.leave r.1 hc ht).logged r.2 fun _ => rfl

/-! ## Contexts -/

namespace Context.Within

variable {H H' : Heap α} {c : Context (Numbered α)}

theorem root : (Context.root : Context (Numbered α)).Within H :=
  ⟨fun _ h => (nomatch h), fun _ h => absurd h List.not_mem_nil⟩

theorem mono (le : H ≤ H') (h : c.Within H) : c.Within H' := by
  have step : ∀ a : Ancestor (Numbered α), a.Within H → a.Within H' := by
    rintro (t | ts) ha
    · exact Heap.mem_of_le le ha
    · exact fun t ht => Heap.mem_of_le le (ha t ht)
  exact ⟨fun a ha => step a (h.parent a ha), fun a ha => step a (h.ancestors a ha)⟩

theorem outer (h : c.Within H) : ∀ a ∈ c.outer, a.Within H := by
  intro a ha
  rcases List.mem_append.1 ha with ha | ha
  · exact h.ancestors a ha
  · exact h.parent a (Option.mem_toList.1 ha)

theorem inSlot (h : c.Within H) {owner : Tree (Numbered α)} (mem : owner ∈ H) {slot : Slot}
    {ts : List (Tree (Numbered α))} (inner : ∀ t ∈ ts, t ∈ H) (i : Nat) :
    (c.inSlot owner slot ts i).Within H := by
  have child : (c.child owner slot).Within H :=
    ⟨fun a ha => Option.some.inj ha ▸ mem, h.outer⟩
  have item : (c.item owner slot ts i).Within H := by
    refine ⟨fun a ha => Option.some.inj ha ▸ inner, fun a ha => ?_⟩
    rcases List.mem_append.1 ha with ha | ha
    · exact h.outer a ha
    · exact List.mem_singleton.1 ha ▸ mem
  unfold Context.inSlot
  cases slot.arity with
  | required => exact child
  | optional => exact child
  | many => exact item

end Context.Within

/-! ## Running side by side -/

/-- Both ended with values that agree, or with the same stop. -/
inductive Matches (Q : β → γ → Prop) : Except Stop β → Except Stop γ → Prop where
  | ok {x : β} {y : γ} (h : Q x y) : Matches Q (.ok x) (.ok y)
  | error (e : Stop) : Matches Q (.error e) (.error e)

/-- From related states, a walk and a naive walk end alike and in related states. -/
def Simulates (rel : Heap α → σ → τ → Prop) (H : Heap α) (m : Walk σ β) (m' : NaiveWalk τ γ)
    (Q : Heap α → β → γ → Prop) : Prop :=
  ∀ s u, rel H s u → ∃ H', H ≤ H' ∧ (m.run ⟨s, H.next⟩).2.next = H'.next ∧
    rel H' (m.run ⟨s, H.next⟩).2.state (m'.run u).2 ∧
    Matches (Q H') (m.run ⟨s, H.next⟩).1 (m'.run u).1

/-- A walk goes on after its first part, or stops with it. -/
theorem walk_bind {ρ : Type} (m : ExceptT Stop (StateM ρ) β)
    (f : β → ExceptT Stop (StateM ρ) γ) (p : ρ) :
    (m >>= f).run p =
      match m.run p with
      | (.ok x, q) => (f x).run q
      | (.error e, q) => (.error e, q) := by
  have unfolded : (m >>= f).run p = ExceptT.bindCont f (m.run p).1 (m.run p).2 := rfl
  rw [unfolded]
  rcases m.run p with ⟨_ | _, _⟩ <;> rfl

namespace Simulates

variable {rel : Heap α → σ → τ → Prop} {H : Heap α}

theorem pure {x : β} {y : γ} {Q : Heap α → β → γ → Prop} (h : Q H x y) :
    Simulates rel H (return x) (return y) Q :=
  fun _ _ r => ⟨H, le_rfl, rfl, r, .ok h⟩

theorem throw (e : Stop) {Q : Heap α → β → γ → Prop} :
    Simulates rel H (throw e) (throw e) Q :=
  fun _ _ r => ⟨H, le_rfl, rfl, r, .error e⟩

theorem fail (e : VisitError) {Q : Heap α → β → γ → Prop} :
    Simulates rel H (Walk.fail e) (NaiveWalk.fail e) Q := throw _

theorem bind {m : Walk σ β} {m' : NaiveWalk τ γ} {f : β → Walk σ δ} {f' : γ → NaiveWalk τ ε}
    {Q : Heap α → β → γ → Prop} {R : Heap α → δ → ε → Prop} (hm : Simulates rel H m m' Q)
    (hf : ∀ H', H ≤ H' → ∀ x y, Q H' x y → Simulates rel H' (f x) (f' y) R) :
    Simulates rel H (m >>= f) (m' >>= f') R := by
  intro s u r
  obtain ⟨H₁, le₁, next₁, r₁, out₁⟩ := hm s u r
  rw [walk_bind, walk_bind]
  generalize m.run ⟨s, H.next⟩ = a at *
  generalize m'.run u = a' at *
  obtain ⟨o, s₁, n₁⟩ := a
  obtain ⟨o', u₁⟩ := a'
  obtain rfl : n₁ = H₁.next := next₁
  cases out₁ with
  | error e => exact ⟨H₁, le₁, rfl, r₁, .error e⟩
  | ok h =>
    obtain ⟨H₂, le₂, next₂, r₂, out₂⟩ := hf H₁ le₁ _ _ h s₁ u₁ r₁
    exact ⟨H₂, le₁.trans le₂, next₂, r₂, out₂⟩

/-- A hook is called on both sides. -/
theorem call {m : StateM σ (Action α)} {m' : StateM τ (Edit α)}
    (h : ∀ s u, rel H s u → Answers rel H (m s) (m' u)) :
    Simulates rel H (Walk.call m) (NaiveWalk.call m') fun H a a' =>
      a.plain = a' ∧ ∀ r, a = .replace r → H.Admits r :=
  fun s u r => ⟨H, le_rfl, rfl, (h s u r).states, .ok ⟨(h s u r).answer, (h s u r).replacement⟩⟩

section

variable (mono : Persistent rel)

include mono

/-- Only the walk with numbers has new nodes to number. -/
theorem adopt_bind {t : Tree (Draft α)} (h : H.Admits t) {f : Tree (Numbered α) → Walk σ β}
    {m' : NaiveWalk τ γ} {Q : Heap α → β → γ → Prop}
    (hf : ∀ H', H ≤ H' → ∀ u ∈ H', u.plain = t.map Draft.info → Simulates rel H' (f u) m' Q) :
    Simulates rel H (Walk.adopt t >>= f) m' Q := by
  have adopted : Simulates rel H (Walk.adopt t) (return ())
      fun H' u _ => u ∈ H' ∧ u.plain = t.map Draft.info := by
    intro s u r
    obtain ⟨H', le, next, mem, plain⟩ := Tree.adopts_of_admits h H le_rfl
    exact ⟨H', le, next.symm, mono le r, .ok ⟨mem, plain⟩⟩
  have both : Simulates rel H (Walk.adopt t >>= f)
      ((return () : NaiveWalk τ Unit) >>= fun _ => m') Q :=
    bind adopted fun H' le u _ hu => hf H' le u hu.1 hu.2
  rwa [pure_bind] at both

/-- A rebuilt node is a new node of the heap. -/
theorem rebuild {t : Tree (Numbered α)} {slots : List (List (Tree (Numbered α)))}
    (fits : List.Forall₂ Slot.Holds t.kind.slots slots) (inner : ∀ ts ∈ slots, ∀ u ∈ ts, u ∈ H) :
    Simulates rel H (Walk.rebuild t slots)
      (return .node t.head t.info.info (slots.map (List.map Tree.plain)))
      fun H u u' => u ∈ H ∧ u.plain = u' := by
  intro s u r
  have free : H.node? H.next = none :=
    Option.eq_none_iff_forall_ne_some.2 fun v hv => Nat.lt_irrefl _ (H.lt_next hv)
  exact ⟨H.reserve.add (.node t.head ⟨H.next, t.info.info⟩ slots) (Nat.lt_succ_self _) free fits
    inner, Heap.le_add H.le_reserve (Nat.le_refl _), rfl,
    mono (Heap.le_add H.le_reserve (Nat.le_refl _)) r, .ok ⟨Heap.mem_add, Tree.plain_node _ _ _⟩⟩

end

end Simulates

/-! ## Children -/

/-- What comes of the nodes of a slot: nodes of the heap that fit the slot as the
nodes before did, and the same nodes if nothing was edited. -/
structure Settled (slot : Slot) (ts : List (Tree (Numbered α))) (H : Heap α)
    (x : List (Tree (Numbered α)) × Bool) (y : List (Tree α)) : Prop where
  plain : x.1.map Tree.plain = y
  mem : ∀ u ∈ x.1, u ∈ H
  admits : ∀ u ∈ x.1, slot.category.admits u.kind
  length_le : x.1.length ≤ ts.length
  length_eq : slot.arity = .required → x.1.length = ts.length
  unedited : x.2 = false → x.1 = ts

namespace Settled

variable {slot : Slot} {ts us : List (Tree (Numbered α))} {H H' : Heap α}
  {x x' : List (Tree (Numbered α)) × Bool} {y y' : List (Tree α)}

theorem mono (le : H ≤ H') (h : Settled slot ts H x y) : Settled slot ts H' x y :=
  { h with mem := fun u hu => Heap.mem_of_le le (h.mem u hu) }

theorem append (h : Settled slot ts H x y) (h' : Settled slot us H x' y') :
    Settled slot (ts ++ us) H (x.1 ++ x'.1, x.2 || x'.2) (y ++ y') where
  plain := by rw [List.map_append, h.plain, h'.plain]
  mem u hu := (List.mem_append.1 hu).elim (h.mem u) (h'.mem u)
  admits u hu := (List.mem_append.1 hu).elim (h.admits u) (h'.admits u)
  length_le := by
    simp only [List.length_append]
    exact Nat.add_le_add h.length_le h'.length_le
  length_eq r := by simp only [List.length_append, h.length_eq r, h'.length_eq r]
  unedited e := by
    obtain ⟨e, e'⟩ := Bool.or_eq_false_iff.1 e
    simp only [h.unedited e, h'.unedited e']

/-- The slot holds what it may hold, if it did before. -/
theorem holds (h : Settled slot ts H x y) (before : slot.Holds ts) : slot.Holds x.1 := by
  refine ⟨?_, h.admits⟩
  have arity := before.1
  cases e : slot.arity with
  | required => exact (h.length_eq e).trans (by simpa only [e] using arity)
  | optional => exact Nat.le_trans h.length_le (by simpa only [e] using arity)
  | many => trivial

end Settled

/-- What comes of the slots of a node. -/
structure SlotsSettled (fields : List (Slot × List (Tree (Numbered α)))) (H : Heap α)
    (x : List (List (Tree (Numbered α))) × Bool) (y : List (List (Tree α))) : Prop where
  plain : x.1.map (List.map Tree.plain) = y
  mem : ∀ us ∈ x.1, ∀ u ∈ us, u ∈ H
  holds : List.Forall₂ Slot.Holds (fields.map Prod.fst) x.1
  unedited : x.2 = false → x.1 = fields.map Prod.snd

section

variable {rel : Heap α → σ → τ → Prop} {H : Heap α} {slot : Slot}

theorem settle_simulates (owner : Kind) (key : PathKey) {t : Tree (Numbered α)} (mem : t ∈ H)
    (admits : slot.category.admits t.kind) {x : Option (Tree (Numbered α))}
    (hx : ∀ u ∈ x, u ∈ H) :
    Simulates rel H (Walk.settle owner slot key t x)
      (NaiveWalk.settle owner slot key (x.map Tree.plain)) (Settled slot [t]) := by
  cases x with
  | none =>
    rw [Walk.settle, Option.map_none, NaiveWalk.settle]
    split
    · exact .fail _
    · next optional =>
      refine .pure ⟨rfl, fun _ h => absurd h List.not_mem_nil, fun _ h => absurd h List.not_mem_nil,
        Nat.zero_le _, fun required => absurd required optional,
        fun h => Bool.noConfusion h⟩
  | some u =>
    have hu : u ∈ H := hx u rfl
    rw [Walk.settle, Option.map_some, NaiveWalk.settle, Tree.plain, Tree.kind_map]
    split
    · next same =>
      -- one number is one node, so the node before has the kind of the slot
      obtain rfl : u = t := Heap.eq_of_id hu mem same
      rw [if_pos admits]
      exact .pure ⟨rfl, by simpa using mem, by simpa using admits, Nat.le_refl _, fun _ => rfl,
        fun _ => rfl⟩
    · split
      · next admitted =>
        exact .pure ⟨rfl, by simpa using hu, by simpa using admitted, Nat.le_refl _, fun _ => rfl,
          fun h => Bool.noConfusion h⟩
      · exact .fail _

/-- The step of a walk and that of a naive walk do the same on every node. -/
def StepSimulates (rel : Heap α → σ → τ → Prop) (step : Walk.Step σ α)
    (step' : NaiveWalk.Step τ α) : Prop :=
  ∀ (H : Heap α) (c : Context (Numbered α)) (t : Tree (Numbered α)), c.Within H → t ∈ H →
    Simulates rel H (step c t) (step' c.plain t.plain) fun H x y =>
      x.map Tree.plain = y ∧ ∀ u ∈ x, u ∈ H

variable {step : Walk.Step σ α} {step' : NaiveWalk.Step τ α} (hstep : StepSimulates rel step step')

include hstep

theorem items_simulates (owner : Kind) {place : Nat → Context (Numbered α)}
    {place' : Nat → Context α} (same : ∀ i, (place i).plain = place' i)
    (within : ∀ i, (place i).Within H) {ts : List (Tree (Numbered α))} (mem : ∀ t ∈ ts, t ∈ H)
    (admits : ∀ t ∈ ts, slot.category.admits t.kind) (i : Nat) :
    Simulates rel H (Walk.items step owner slot place i ts)
      (NaiveWalk.items step' owner slot place' i (ts.map Tree.plain)) (Settled slot ts) := by
  induction ts generalizing i H with
  | nil =>
    exact .pure ⟨rfl, fun _ h => absurd h List.not_mem_nil, fun _ h => absurd h List.not_mem_nil,
      Nat.le_refl _, fun _ => rfl, fun _ => rfl⟩
  | cons t ts ih =>
    rw [List.forall_mem_cons] at mem admits
    rw [Walk.items, List.map_cons, NaiveWalk.items]
    refine .bind (same i ▸ hstep H _ t (within i) mem.1) fun H₁ le₁ x y hx => ?_
    obtain ⟨rfl, hx⟩ := hx
    refine .bind (settle_simulates owner _ (Heap.mem_of_le le₁ mem.1) admits.1 hx)
      fun H₂ le₂ kept kept' h₂ => ?_
    have le := le₁.trans le₂
    refine .bind (ih (fun i => (within i).mono le) (fun u hu => Heap.mem_of_le le (mem.2 u hu))
      admits.2 (i + 1)) fun H₃ le₃ rest rest' h₃ => ?_
    exact .pure ((h₂.mono le₃).append h₃)

theorem slots_simulates {c : Context (Numbered α)} {t : Tree (Numbered α)} (ht : t ∈ H)
    (within : c.Within H) {fields : List (Slot × List (Tree (Numbered α)))}
    (mem : ∀ f ∈ fields, ∀ u ∈ f.2, u ∈ H) (holds : ∀ f ∈ fields, f.1.Holds f.2) :
    Simulates rel H (Walk.slots step c t fields)
      (NaiveWalk.slots step' c.plain t.plain (fields.map fun f => (f.1, f.2.map Tree.plain)))
      (SlotsSettled fields) := by
  induction fields generalizing H with
  | nil => exact .pure ⟨rfl, fun _ h => absurd h List.not_mem_nil, .nil, fun _ => rfl⟩
  | cons f rest ih =>
    obtain ⟨slot, ts⟩ := f
    rw [List.forall_mem_cons] at mem holds
    rw [Walk.slots, List.map_cons, NaiveWalk.slots, Tree.plain, Tree.kind_map]
    refine .bind (items_simulates hstep t.kind (fun i => Context.plain_inSlot c t slot ts i)
      (fun i => within.inSlot ht mem.1 i) mem.1 holds.1.2 0) fun H₁ le₁ kept kept' h₁ => ?_
    refine .bind (ih (Heap.mem_of_le le₁ ht) (within.mono le₁)
      (fun f hf u hu => Heap.mem_of_le le₁ (mem.2 f hf u hu)) holds.2)
      fun H₂ le₂ more more' h₂ => ?_
    refine .pure ⟨?_, ?_, ?_, fun e => ?_⟩
    · rw [List.map_cons, h₁.plain, h₂.plain]
    · exact List.forall_mem_cons.2 ⟨(h₁.mono le₂).mem, h₂.mem⟩
    · exact .cons (h₁.holds holds.1) h₂.holds
    · obtain ⟨e, e'⟩ := Bool.or_eq_false_iff.1 e
      simp only [h₁.unedited e, h₂.unedited e', List.map_cons]

variable (mono : Persistent rel)

include mono

theorem children_simulates {c : Context (Numbered α)} {t : Tree (Numbered α)} (ht : t ∈ H)
    (within : c.Within H) :
    Simulates rel H (Walk.children step c t) (NaiveWalk.children step' c.plain t.plain)
      fun H u u' => u ∈ H ∧ u.plain = u' := by
  have fits := Heap.fits_of_mem ht
  have mem : ∀ f ∈ t.fields, ∀ u ∈ f.2, u ∈ H :=
    fun f hf u hu => Heap.child_mem ht (List.of_mem_zip hf).2 hu
  rw [Walk.children, NaiveWalk.children, Tree.plain, Tree.fields_map, Tree.head_map,
    Tree.info_map]
  refine .bind (slots_simulates hstep ht within mem fits.fields_holds) fun H₁ le x y h => ?_
  obtain ⟨contents, edited⟩ := x
  obtain rfl := h.plain
  cases edited with
  | true => exact Simulates.rebuild mono (fits.fields_fst ▸ h.holds) h.mem
  | false =>
    have same : contents = t.slots := (h.unedited rfl).trans fits.fields_snd
    refine .pure ⟨Heap.mem_of_le le ht, ?_⟩
    cases t
    rw [same]
    exact Tree.plain_node _ _ _

end

/-! ## Nodes -/

section

variable {rel : Heap α → σ → τ → Prop} {hooks : Hooks σ α} {plain : PlainHooks τ α}
  (h : hooks.DecidesAs plain rel)

include h

theorem leave_simulates {H : Heap α} {c : Context (Numbered α)} {t : Tree (Numbered α)}
    (ht : t ∈ H) (within : c.Within H) :
    Simulates rel H (Walk.leave hooks c t) (NaiveWalk.leave plain c.plain t.plain)
      fun H x y => x.map Tree.plain = y ∧ ∀ u ∈ x, u ∈ H := by
  refine .bind (.call fun s u r => h.leave r within ht) fun H₁ le a a' ⟨same, admits⟩ => ?_
  have kept : ∀ u ∈ some t, u ∈ H₁ := fun u hu => Option.some.inj hu ▸ Heap.mem_of_le le ht
  subst same
  cases a with
  | keep => exact .pure ⟨rfl, kept⟩
  | skip => exact .pure ⟨rfl, kept⟩
  | remove => exact .pure ⟨rfl, fun _ hu => (nomatch hu)⟩
  | replace r =>
    refine .adopt_bind h.mono (admits r rfl) fun H₂ _ u hu same => ?_
    exact .pure ⟨congrArg some same, fun v hv => Option.some.inj hv ▸ hu⟩
  | stop => exact .throw _
  | fail message => exact .fail _

/-- A walk does to every node what a naive walk does. -/
theorem node_simulates (depth : Nat) :
    StepSimulates rel (Walk.node hooks depth) (NaiveWalk.node plain depth) := by
  induction depth with
  | zero => exact fun _ _ _ _ _ => .fail _
  | succ depth ih =>
    intro H c t within ht
    -- the node that the children are visited of, the same one or a replacement
    have below : ∀ H' : Heap α, H ≤ H' → ∀ u ∈ H',
        Simulates rel H'
          (Walk.children (Walk.node hooks depth) c u >>= Walk.leave hooks c)
          (NaiveWalk.children (NaiveWalk.node plain depth) c.plain u.plain >>=
            NaiveWalk.leave plain c.plain)
          fun H x y => x.map Tree.plain = y ∧ ∀ v ∈ x, v ∈ H := by
      intro H' le u hu
      refine .bind (children_simulates ih h.mono hu (within.mono le)) fun H₁ le₁ v v' hv => ?_
      obtain ⟨hv, rfl⟩ := hv
      exact leave_simulates h hv (within.mono (le.trans le₁))
    rw [Walk.node, NaiveWalk.node]
    refine .bind (.call fun s u r => h.enter r within ht) fun H₁ le a a' ⟨same, admits⟩ => ?_
    subst same
    cases a with
    | keep => exact below H₁ le t (Heap.mem_of_le le ht)
    | skip => exact .pure ⟨rfl, fun u hu => Option.some.inj hu ▸ Heap.mem_of_le le ht⟩
    | remove => exact .pure ⟨rfl, fun _ hu => (nomatch hu)⟩
    | replace r =>
      refine .adopt_bind h.mono (admits r rfl) fun H₂ le₂ u hu same => ?_
      rw [Action.plain, ← same]
      exact below H₂ (le.trans le₂) u hu
    | stop => exact .throw _
    | fail message => exact .fail _

/-- A visit ends as a naive visit does, with the same tree up to numbers or with
the same error, and leaves related states. -/
theorem visit_simulates {H : Heap α} {root : Tree (Numbered α)} (hr : root ∈ H) {s : σ} {u : τ}
    (r : rel H s u) (depth : Nat) :
    (visit hooks depth H.next root s).1.map Tree.plain = (plain.visit depth root.plain u).1 ∧
      ∃ H', H ≤ H' ∧
        rel H' (visit hooks depth H.next root s).2.state (plain.visit depth root.plain u).2 := by
  obtain ⟨H', le, -, r', out⟩ :=
    node_simulates h depth H .root root Context.Within.root hr s u r
  rw [Context.plain_root] at r' out
  rw [visit_eq, PlainHooks.visit_eq]
  refine ⟨?_, H', le, r'⟩
  revert out
  generalize ((Walk.node hooks depth .root root).run ⟨s, H.next⟩).1 = o
  generalize ((NaiveWalk.node plain depth .root root.plain).run u).1 = o'
  intro out
  cases out with
  | @ok x y same =>
    obtain ⟨rfl, -⟩ := same
    cases x <;> rfl
  | error e => cases e <;> rfl

end

end QueryDoc
