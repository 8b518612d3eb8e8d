import QueryDoc.Visit
import QueryDoc.Proofs.Tree.Shape
import Mathlib.Order.Basic

/-!
# The nodes that exist

A number stands for one node for good: nodes are made, but none is ever changed.
A heap holds the nodes that exist at a point of a visit, each under its number,
together with the first number not given out yet. Every node in it fits the table
of slots, and its children are in the heap too. Heaps only grow.

A hook may bring in nodes of the heap and new nodes above them. Giving numbers to
the new ones makes a larger heap that has the replacement as one of its nodes.
-/
namespace QueryDoc

variable {α : Type}

structure Heap (α : Type) where
  node? : Nat → Option (Tree (Numbered α))
  next : Nat
  id_eq : ∀ {i t}, node? i = some t → t.id = i
  lt_next : ∀ {i t}, node? i = some t → i < next
  fits : ∀ {i t}, node? i = some t → t.Fits
  closed : ∀ {i t}, node? i = some t → ∀ ts ∈ t.slots, ∀ u ∈ ts, node? u.id = some u

namespace Heap

variable {H H' H₁ H₂ : Heap α} {t u : Tree (Numbered α)}

instance : Membership (Tree (Numbered α)) (Heap α) := ⟨fun H t => H.node? t.id = some t⟩

theorem mem_iff : t ∈ H ↔ H.node? t.id = some t := Iff.rfl

/-- Nodes of one number are one node. -/
theorem eq_of_id (ht : t ∈ H) (hu : u ∈ H) (h : t.id = u.id) : t = u := by
  rw [mem_iff, h, hu] at ht
  exact (Option.some.inj ht).symm

theorem id_lt (ht : t ∈ H) : t.id < H.next := H.lt_next ht

theorem fits_of_mem (ht : t ∈ H) : t.Fits := H.fits ht

theorem child_mem (ht : t ∈ H) {ts : List (Tree (Numbered α))} (hts : ts ∈ t.slots)
    (hu : u ∈ ts) : u ∈ H := H.closed ht ts hts u hu

/-- The later heap has the same nodes, and more of them under new numbers. -/
structure Grows (H H' : Heap α) : Prop where
  next_le : H.next ≤ H'.next
  same : ∀ i < H.next, H'.node? i = H.node? i

instance : Preorder (Heap α) where
  le := Grows
  le_refl _ := ⟨Nat.le_refl _, fun _ _ => rfl⟩
  le_trans _ _ _ h h' :=
    ⟨Nat.le_trans h.next_le h'.next_le,
      fun i hi => (h'.same i (Nat.lt_of_lt_of_le hi h.next_le)).trans (h.same i hi)⟩

theorem grows (h : H ≤ H') : H.Grows H' := h

theorem mem_of_le (h : H ≤ H') (ht : t ∈ H) : t ∈ H' := ((grows h).same _ (id_lt ht)).trans ht

/-- No node exists yet. -/
def empty : Heap α where
  node? _ := none
  next := 0
  id_eq h := nomatch h
  lt_next h := nomatch h
  fits h := nomatch h
  closed h := nomatch h

/-- The next number is given out, its node still to come. -/
def reserve (H : Heap α) : Heap α where
  node? := H.node?
  next := H.next + 1
  id_eq := H.id_eq
  lt_next h := Nat.lt_succ_of_lt (H.lt_next h)
  fits := H.fits
  closed := H.closed

theorem le_reserve (H : Heap α) : H ≤ H.reserve := Grows.mk (Nat.le_succ _) fun _ _ => rfl

/-- The heap with a node under a number that was given out. -/
def add (H : Heap α) (t : Tree (Numbered α)) (lt : t.id < H.next) (free : H.node? t.id = none)
    (fits : t.Fits) (inner : ∀ ts ∈ t.slots, ∀ u ∈ ts, u ∈ H) : Heap α where
  node? i := if i = t.id then some t else H.node? i
  next := H.next
  id_eq {i u} h := by
    split at h
    · next hi => rw [hi, Option.some.inj h]
    · exact H.id_eq h
  lt_next {i u} h := by
    split at h
    · next hi => exact hi ▸ lt
    · exact H.lt_next h
  fits {i u} h := by
    split at h
    · exact Option.some.inj h ▸ fits
    · exact H.fits h
  closed {i u} h us hus v hv := by
    have old : v ∈ H := by
      split at h
      · rw [← Option.some.inj h] at hus
        exact inner us hus v hv
      · exact H.closed h us hus v hv
    have other : v.id ≠ t.id := by
      intro e
      rw [mem_iff, e, free] at old
      exact nomatch old
    rw [if_neg other]
    exact old

section

variable {lt : t.id < H.next} {free : H.node? t.id = none} {fits : t.Fits}
  {inner : ∀ ts ∈ t.slots, ∀ u ∈ ts, u ∈ H}

@[simp] theorem add_next : (H.add t lt free fits inner).next = H.next := rfl

theorem mem_add : t ∈ H.add t lt free fits inner := if_pos rfl

/-- A new node makes a larger heap than the one before its number was given out. -/
theorem le_add (h : H₁ ≤ H) (new : H₁.next ≤ t.id) : H₁ ≤ H.add t lt free fits inner := by
  refine Grows.mk (grows h).next_le fun i hi => ?_
  have other : i ≠ t.id := Nat.ne_of_lt (Nat.lt_of_lt_of_le hi new)
  exact (if_neg other).trans ((grows h).same i hi)

end

/-! ## Drafts -/

/-- A draft that uses the nodes of the heap as they are, and may have new nodes
above them. -/
inductive Admits (H : Heap α) : Tree (Draft α) → Prop where
  | existing {t : Tree (Numbered α)} (mem : t ∈ H) : H.Admits t.asDraft
  | new {head : Head} {info : α} {slots : List (List (Tree (Draft α)))}
    (fits : (Tree.node head ⟨none, info⟩ slots : Tree (Draft α)).Fits)
    (inner : ∀ ts ∈ slots, ∀ t ∈ ts, H.Admits t) : H.Admits (.node head ⟨none, info⟩ slots)

/-- New nodes throughout may always be brought in. -/
theorem admits_fresh (H : Heap α) {t : Tree α} (h : t.WellFormed) : H.Admits t.fresh := by
  induction h with
  | @node head info slots fits _ ih =>
    have fits' := (Tree.fits_map (fun i => (⟨none, i⟩ : Draft α)) _).2 fits
    rw [Tree.map_node] at fits'
    rw [Tree.fresh, Tree.map_node]
    refine .new fits' fun ts hts t ht => ?_
    obtain ⟨us, hus, rfl⟩ := List.mem_map.1 hts
    obtain ⟨u, hu, rfl⟩ := List.mem_map.1 ht
    exact ih us hus u hu

end Heap

namespace Tree

/-! ## Giving numbers -/

theorem adoptList_asDraft {ts : List (Tree (Numbered α))}
    (h : ∀ t ∈ ts, ∀ n, adopt n t.asDraft = (t, n)) (n : Nat) :
    adoptList n (ts.map asDraft) = (ts, n) := by
  induction ts with
  | nil => rfl
  | cons t ts ih =>
    rw [List.forall_mem_cons] at h
    rw [List.map_cons, adoptList, h.1, ih h.2]

theorem adoptSlots_asDraft {slots : List (List (Tree (Numbered α)))}
    (h : ∀ ts ∈ slots, ∀ t ∈ ts, ∀ n, adopt n t.asDraft = (t, n)) (n : Nat) :
    adoptSlots n (slots.map (List.map asDraft)) = (slots, n) := by
  induction slots with
  | nil => rfl
  | cons ts rest ih =>
    rw [List.forall_mem_cons] at h
    rw [List.map_cons, adoptSlots, adoptList_asDraft h.1, ih h.2]

/-- A node that exists keeps its number, and so do all nodes below it. -/
theorem adopt_asDraft (t : Tree (Numbered α)) (n : Nat) : adopt n t.asDraft = (t, n) := by
  induction t using Tree.induct generalizing n with
  | node head info slots ih =>
    rw [asDraft, map_node, adopt]
    simp only [Option.getD_some, Option.isSome_some, if_true]
    rw [show slots.map (List.map (map _)) = slots.map (List.map asDraft) from rfl,
      adoptSlots_asDraft fun ts hts t ht n => ih ts hts t ht n]

/-- From the heap on, the draft becomes a node of a larger heap. -/
def Adopts (H : Heap α) (t : Tree (Draft α)) : Prop :=
  ∃ H', H ≤ H' ∧ H'.next = (adopt H.next t).2 ∧ (adopt H.next t).1 ∈ H' ∧
    (adopt H.next t).1.plain = t.map Draft.info

theorem adoptList_mem {H : Heap α} {ts : List (Tree (Draft α))}
    (h : ∀ t ∈ ts, ∀ H₁ ≥ H, Adopts H₁ t) (H₁ : Heap α) (le : H ≤ H₁) :
    ∃ H', H₁ ≤ H' ∧ H'.next = (adoptList H₁.next ts).2 ∧
      (∀ u ∈ (adoptList H₁.next ts).1, u ∈ H') ∧
      (adoptList H₁.next ts).1.map plain = ts.map (map Draft.info) := by
  induction ts generalizing H₁ with
  | nil => exact ⟨H₁, le_rfl, rfl, fun _ h => absurd h List.not_mem_nil, rfl⟩
  | cons t ts ih =>
    rw [List.forall_mem_cons] at h
    obtain ⟨H₂, le₂, next₂, mem₂, plain₂⟩ := h.1 H₁ le
    obtain ⟨H₃, le₃, next₃, mem₃, plain₃⟩ := ih h.2 H₂ (le.trans le₂)
    rw [next₂] at next₃ mem₃ plain₃
    refine ⟨H₃, le₂.trans le₃, next₃, ?_, ?_⟩
    · exact List.forall_mem_cons.2 ⟨Heap.mem_of_le le₃ mem₂, mem₃⟩
    · rw [adoptList, List.map_cons, List.map_cons, plain₂, plain₃]

theorem adoptSlots_mem {H : Heap α} {slots : List (List (Tree (Draft α)))}
    (h : ∀ ts ∈ slots, ∀ t ∈ ts, ∀ H₁ ≥ H, Adopts H₁ t) (H₁ : Heap α) (le : H ≤ H₁) :
    ∃ H', H₁ ≤ H' ∧ H'.next = (adoptSlots H₁.next slots).2 ∧
      (∀ us ∈ (adoptSlots H₁.next slots).1, ∀ u ∈ us, u ∈ H') ∧
      (adoptSlots H₁.next slots).1.map (List.map plain) =
        slots.map (List.map (map Draft.info)) := by
  induction slots generalizing H₁ with
  | nil => exact ⟨H₁, le_rfl, rfl, fun _ h => absurd h List.not_mem_nil, rfl⟩
  | cons ts rest ih =>
    rw [List.forall_mem_cons] at h
    obtain ⟨H₂, le₂, next₂, mem₂, plain₂⟩ := adoptList_mem h.1 H₁ le
    obtain ⟨H₃, le₃, next₃, mem₃, plain₃⟩ := ih h.2 H₂ (le.trans le₂)
    rw [next₂] at next₃ mem₃ plain₃
    refine ⟨H₃, le₂.trans le₃, next₃, ?_, ?_⟩
    · exact List.forall_mem_cons.2 ⟨fun u hu => Heap.mem_of_le le₃ (mem₂ u hu), mem₃⟩
    · rw [adoptSlots, List.map_cons, List.map_cons, plain₂, plain₃]

theorem plain_node (head : Head) (info : Numbered α) (slots : List (List (Tree (Numbered α)))) :
    (node head info slots).plain = node head info.info (slots.map (List.map plain)) :=
  map_node _ _ _ _

@[simp] theorem plain_fits (t : Tree (Numbered α)) : t.plain.Fits ↔ t.Fits := fits_map _ t

theorem adoptList_plain {ts : List (Tree (Draft α))}
    (h : ∀ t ∈ ts, ∀ n, (adopt n t).1.plain = t.map Draft.info) (n : Nat) :
    (adoptList n ts).1.map plain = ts.map (map Draft.info) := by
  induction ts generalizing n with
  | nil => rfl
  | cons t ts ih =>
    rw [List.forall_mem_cons] at h
    rw [adoptList, List.map_cons, List.map_cons, h.1, ih h.2]

theorem adoptSlots_plain {slots : List (List (Tree (Draft α)))}
    (h : ∀ ts ∈ slots, ∀ t ∈ ts, ∀ n, (adopt n t).1.plain = t.map Draft.info) (n : Nat) :
    (adoptSlots n slots).1.map (List.map plain) = slots.map (List.map (map Draft.info)) := by
  induction slots generalizing n with
  | nil => rfl
  | cons ts slots ih =>
    rw [List.forall_mem_cons] at h
    rw [adoptSlots, List.map_cons, List.map_cons, adoptList_plain h.1, ih h.2]

/-- Numbers do not change a tree otherwise. -/
theorem plain_adopt (t : Tree (Draft α)) (n : Nat) :
    (adopt n t).1.plain = t.map Draft.info := by
  induction t using Tree.induct generalizing n with
  | node head info slots ih =>
    rw [adopt, plain_node, map_node, adoptSlots_plain ih]

theorem le_adoptList {ts : List (Tree (Draft α))} (h : ∀ t ∈ ts, ∀ n, n ≤ (adopt n t).2) (n : Nat) :
    n ≤ (adoptList n ts).2 := by
  induction ts generalizing n with
  | nil => exact Nat.le_refl n
  | cons t ts ih =>
    rw [List.forall_mem_cons] at h
    have rest := ih h.2 (adopt n t).2
    exact Nat.le_trans (h.1 n) rest

theorem le_adoptSlots {slots : List (List (Tree (Draft α)))}
    (h : ∀ ts ∈ slots, ∀ t ∈ ts, ∀ n, n ≤ (adopt n t).2) (n : Nat) :
    n ≤ (adoptSlots n slots).2 := by
  induction slots generalizing n with
  | nil => exact Nat.le_refl n
  | cons ts slots ih =>
    rw [List.forall_mem_cons] at h
    have rest := ih h.2 (adoptList n ts).2
    exact Nat.le_trans (le_adoptList h.1 n) rest

/-- Numbers are given out upwards. -/
theorem le_adopt (t : Tree (Draft α)) (n : Nat) : n ≤ (adopt n t).2 := by
  induction t using Tree.induct generalizing n with
  | node head info slots ih =>
    have free : n ≤ if info.id.isSome then n else n + 1 := by split <;> omega
    have below := le_adoptSlots ih (if info.id.isSome then n else n + 1)
    exact Nat.le_trans free below

/-- Numbers for the new nodes of a draft make it a node of a larger heap. -/
theorem adopts_of_admits {H : Heap α} {t : Tree (Draft α)} (h : H.Admits t) (H₁ : Heap α)
    (le : H ≤ H₁) : Adopts H₁ t := by
  induction h generalizing H₁ with
  | @existing t mem =>
    rw [Adopts, adopt_asDraft]
    exact ⟨H₁, le_rfl, rfl, Heap.mem_of_le le mem, by rw [asDraft, map_map]; rfl⟩
  | @new head info slots fits _ ih =>
    -- the node's own number is given out before those of its children
    obtain ⟨H₂, le₂, next₂, mem₂, plain₂⟩ :=
      adoptSlots_mem ih H₁.reserve (le.trans H₁.le_reserve)
    have result : adopt H₁.next (.node head ⟨none, info⟩ slots) =
        (.node head ⟨H₁.next, info⟩ (adoptSlots H₁.reserve.next slots).1, H₂.next) := by
      rw [next₂]; rfl
    generalize (adoptSlots H₁.reserve.next slots).1 = slots' at *
    have same : (node head ⟨H₁.next, info⟩ slots' : Tree (Numbered α)).plain =
        (node head ⟨none, info⟩ slots : Tree (Draft α)).map Draft.info := by
      rw [plain_node, map_node, plain₂]
    have free : H₂.node? H₁.next = none := by
      rw [(Heap.grows le₂).same H₁.next (Nat.lt_succ_self _)]
      exact Option.eq_none_iff_forall_ne_some.2 fun u hu => Nat.lt_irrefl _ (H₁.lt_next hu)
    have fits' : (node head ⟨H₁.next, info⟩ slots' : Tree (Numbered α)).Fits := by
      rw [← plain_fits, same]
      exact (fits_map _ _).2 fits
    have given : (node head ⟨H₁.next, info⟩ slots' : Tree (Numbered α)).id < H₂.next :=
      (Heap.grows le₂).next_le
    rw [Adopts, result]
    exact ⟨H₂.add _ given free fits' mem₂,
      Heap.le_add (H₁.le_reserve.trans le₂) (Nat.le_refl _), rfl, Heap.mem_add, same⟩

/-- The numbered tree of a well-formed tree is a node of some heap. -/
theorem numbered_mem {t : Tree α} (h : t.WellFormed) :
    ∃ H : Heap α, H.next = t.numbered.2 ∧ t.numbered.1 ∈ H ∧ t.numbered.1.plain = t := by
  obtain ⟨H, -, next, mem, plain⟩ := adopts_of_admits (Heap.empty.admits_fresh h) .empty le_rfl
  refine ⟨H, next, mem, plain.trans ?_⟩
  rw [fresh, map_map]
  exact map_id t

theorem wellFormed_numbered {t : Tree α} (h : t.WellFormed) : t.numbered.1.WellFormed := by
  obtain ⟨H, -, -, plain⟩ := numbered_mem h
  rw [← plain] at h
  exact (wellFormed_map Numbered.info _).1 h

end Tree

end QueryDoc
