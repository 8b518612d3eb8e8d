import QueryDoc.Proofs.Visit.CopyOnWrite
import QueryDoc.Proofs.Visit.Tour
import Mathlib.Data.List.Sigma

/-!
# What the context of a visit says

A context names the containers between the root and a node, and the keys that
lead from each to the next. Along a tour each container is what the one before it
holds under its key, or what the entering hook put in the place of that. So a path
leads to the node that is entered there, and no path is entered twice.
-/
namespace QueryDoc

variable {σ α : Type}

/-- What a container holds under a key: a node holds its lists and its single
children by the keys of their slots, a list its nodes by their places. -/
def Ancestor.holds : Ancestor α → PathKey → Option (Ancestor α)
  | .node t, .field key =>
    (t.fields.find? fun f => f.1.key == key).bind fun f =>
      match f.1.arity with
      | .many => some (.list f.2)
      | _ => f.2.head?.map .node
  | .list ts, .index i => ts[i]?.map .node
  | _, _ => none

/-- What a path leads to. -/
def Ancestor.follow (a : Ancestor α) (path : List PathKey) : Option (Ancestor α) :=
  path.foldlM Ancestor.holds a

/-- What a container at a path is while its children are visited: a list itself, and
a node what the answer of its own entering hook made of it. -/
inductive Becomes (calls : List (Encounter α)) (path : List PathKey) :
    Ancestor (Numbered α) → Ancestor (Numbered α) → Prop where
  | list (ts : List (Tree (Numbered α))) : Becomes calls path (.list ts) (.list ts)
  | node {c : Context (Numbered α)} {t u : Tree (Numbered α)} {a : Action α}
    (called : ⟨⟨false, c, t⟩, a⟩ ∈ calls) (here : c.path = path) (opens : a.Opens t u) :
    Becomes calls path (.node t) (.node u)

/-- The context is right for a visit of the root that makes these calls. -/
structure Context.IsRight (calls : List (Encounter α)) (root : Tree (Numbered α))
    (c : Context (Numbered α)) : Prop where
  atRoot : c.path = [] → c.key = none ∧ c.parent = none ∧ c.ancestors = []
  key : c.path ≠ [] → c.key = c.path.getLast? ∧ c.parent.isSome
  length : c.path ≠ [] → c.ancestors.length + 1 = c.path.length
  first : ∀ a, c.outer[0]? = some a → Becomes calls [] (.node root) a
  further : ∀ i a b, c.outer[i]? = some a → c.outer[i + 1]? = some b →
    ∃ key held, c.path[i]? = some key ∧ a.holds key = some held ∧
      Becomes calls (c.path.take (i + 1)) held b

/-- The node is the root, or what the parent holds under the key. -/
def Context.IsPlaceOf (root : Tree (Numbered α)) (c : Context (Numbered α))
    (t : Tree (Numbered α)) : Prop :=
  (c.path = [] → t = root) ∧
    ∀ a key, c.parent = some a → c.key = some key → a.holds key = some (.node t)

/-- The paths of the nodes that are entered, in order. -/
def enteredPaths (calls : List (Encounter α)) : List (List PathKey) :=
  (calls.filter fun k => !k.leaving).map fun k => k.place.path

/-- Nodes that entering hooks put in the place of others keep to the table of slots. -/
def WellReplaced (calls : List (Encounter α)) : Prop :=
  ∀ k ∈ calls, k.leaving = false → ∀ r, k.answer = .replace r → r.WellFormed

/-! ## Containers -/

theorem Action.Opens.wellFormed {t u : Tree (Numbered α)} {a : Action α} (h : a.Opens t u)
    (ht : t.WellFormed) (hr : ∀ r, a = .replace r → r.WellFormed) : u.WellFormed := by
  cases h with
  | keep => exact ht
  | replace r next =>
    have plain : (Tree.adopt next r).1.plain.WellFormed := by
      rw [Tree.plain_adopt, Tree.wellFormed_map]
      exact hr r rfl
    exact (Tree.wellFormed_map _ _).1 plain

theorem Kind.slots_keys_nodup (k : Kind) : (k.slots.map Slot.key).Nodup := by
  cases k <;> decide

namespace Tree.Fits
variable {t : Tree α}

theorem fields_keys_nodup (h : t.Fits) : (t.fields.map fun f => f.1.key).Nodup := by
  have keys := t.kind.slots_keys_nodup
  rw [← h.fields_fst, List.map_map] at keys
  exact keys

/-- A slot is found under its key. -/
theorem find_field (h : t.Fits) {f : Slot × List (Tree α)} (hf : f ∈ t.fields) :
    (t.fields.find? fun g => g.1.key == f.1.key) = some f := by
  have keys := h.fields_keys_nodup
  generalize t.fields = fields at *
  induction fields with
  | nil => exact absurd hf List.not_mem_nil
  | cons g fields ih =>
    obtain ⟨distinct, keys⟩ := List.nodup_cons.1 keys
    rcases List.mem_cons.1 hf with rfl | hf
    · exact List.find?_cons_of_pos (beq_self_eq_true _)
    · have other : (g.1.key == f.1.key) = false := by
        rw [beq_eq_false_iff_ne]
        intro same
        exact distinct (List.mem_map.2 ⟨f, hf, same.symm⟩)
      rw [List.find?_cons_of_neg (by simp [other])]
      exact ih hf keys

end Tree.Fits

/-- A child of a node, with its place. -/
theorem Context.mem_below {c : Context α} {t : Tree α} {x : Context α × Tree α}
    (hx : x ∈ c.below t) :
    ∃ f ∈ t.fields, ∃ i, f.2[i]? = some x.2 ∧ x.1 = c.inSlot t f.1 f.2 i := by
  obtain ⟨f, hf, hx⟩ := List.mem_flatMap.1 hx
  obtain ⟨y, hy, rfl⟩ := List.mem_map.1 hx
  exact ⟨f, hf, y.2, List.mem_zipIdx_iff_getElem?.1 hy, rfl⟩

/-- The only child in a slot that is not a list. -/
theorem Slot.Holds.single {s : Slot} {ts : List (Tree α)} (h : s.Holds ts) (one : s.arity ≠ .many)
    {i : Nat} {t : Tree α} (ht : ts[i]? = some t) : ts = [t] := by
  have length : ts.length ≤ 1 := by
    have count := h.1
    revert one count
    cases s.arity with
    | required => exact fun _ count => Nat.le_of_eq count
    | optional => exact fun _ count => count
    | many => exact fun one _ => absurd rfl one
  have bound := (List.getElem?_eq_some_iff.1 ht).1
  obtain ⟨u, rfl⟩ := List.length_eq_one_iff.1 (show ts.length = 1 by omega)
  obtain rfl : i = 0 := by
    rw [List.length_singleton] at bound
    omega
  exact congrArg (fun v => [v]) (Option.some.inj ht)

namespace Ancestor

theorem holds_list {t : Tree α} (h : t.Fits) {f : Slot × List (Tree α)} (hf : f ∈ t.fields)
    (many : f.1.arity = .many) : (node t).holds (.field f.1.key) = some (.list f.2) := by
  rw [holds, h.find_field hf, Option.bind_some, many]

theorem holds_single {t u : Tree α} (h : t.Fits) {f : Slot × List (Tree α)} (hf : f ∈ t.fields)
    (one : f.1.arity ≠ .many) (only : f.2 = [u]) :
    (node t).holds (.field f.1.key) = some (.node u) := by
  rw [holds, h.find_field hf, Option.bind_some, only]
  revert one
  cases f.1.arity with
  | required => exact fun _ => rfl
  | optional => exact fun _ => rfl
  | many => exact fun one => absurd rfl one

@[simp] theorem follow_nil (a : Ancestor α) : a.follow [] = some a := rfl

@[simp] theorem follow_cons (a : Ancestor α) (key : PathKey) (path : List PathKey) :
    a.follow (key :: path) = (a.holds key).bind fun b => b.follow path := rfl

theorem follow_append (a : Ancestor α) (path rest : List PathKey) :
    a.follow (path ++ rest) = (a.follow path).bind fun b => b.follow rest := List.foldlM_append

theorem holds_item {ts : List (Tree α)} {i : Nat} {t : Tree α} (h : ts[i]? = some t) :
    (list ts).holds (.index i) = some (.node t) := by
  rw [holds, h, Option.map_some]

end Ancestor

theorem Tree.WellFormed.child {t : Tree α} (h : t.WellFormed) {c : Context α}
    (x : Context α × Tree α) (hx : x ∈ c.below t) : x.2.WellFormed := by
  obtain ⟨f, hf, i, item, -⟩ := Context.mem_below hx
  exact h.inner f.2 (List.of_mem_zip hf).2 x.2 (List.mem_of_getElem? item)

/-- The keys that lead from a node to a child. -/
theorem Context.exists_steps {c : Context α} {t : Tree α} (h : t.Fits) {x : Context α × Tree α}
    (hx : x ∈ c.below t) : ∃ key steps, x.1.path = c.path ++ key :: steps ∧
      (Ancestor.node t).follow (key :: steps) = some (.node x.2) := by
  obtain ⟨f, hf, i, item, place⟩ := mem_below hx
  rw [place, path_inSlot]
  by_cases many : f.1.arity = .many
  · have held := Ancestor.holds_list h hf many
    refine ⟨.field f.1.key, [.index i], by rw [many], ?_⟩
    simp only [Ancestor.follow_cons, held, Ancestor.holds_item item, Ancestor.follow_nil,
      Option.bind_some]
  · have only := (h.fields_holds f hf).single many item
    have held := Ancestor.holds_single h hf many only
    refine ⟨.field f.1.key, [], ?_, ?_⟩
    · split
      · next same => exact absurd same many
      · rfl
    · simp only [Ancestor.follow_cons, held, Ancestor.follow_nil, Option.bind_some]

/-! ## The way from the root -/

section
variable {calls : List (Encounter α)} {root : Tree (Numbered α)}

/-- The visit comes to the node at its place, by the calls at the nodes above. -/
inductive Reached (calls : List (Encounter α)) (root : Tree (Numbered α)) :
    Context (Numbered α) → Tree (Numbered α) → Prop where
  | root : Reached calls root .root root
  | child {c : Context (Numbered α)} {t u : Tree (Numbered α)} {a : Action α}
    {x : Context (Numbered α) × Tree (Numbered α)} (above : Reached calls root c t)
    (called : ⟨⟨false, c, t⟩, a⟩ ∈ calls) (opens : a.Opens t u) (mem : x ∈ c.below u) :
    Reached calls root x.1 x.2

/-- The containers that lead from the root to a place, and the keys between them. -/
structure Chained (calls : List (Encounter α)) (root : Tree (Numbered α))
    (containers : List (Ancestor (Numbered α))) (path : List PathKey) : Prop where
  length : containers.length = path.length
  first : ∀ a, containers[0]? = some a → Becomes calls [] (.node root) a
  further : ∀ i a b, containers[i]? = some a → containers[i + 1]? = some b →
    ∃ key held, path[i]? = some key ∧ a.holds key = some held ∧
      Becomes calls (path.take (i + 1)) held b

/-- What the last of the containers holds under the last key; without containers, the
root. -/
def lastHeld (root : Tree (Numbered α)) (containers : List (Ancestor (Numbered α)))
    (path : List PathKey) : Option (Ancestor (Numbered α)) :=
  match containers.getLast?, path.getLast? with
  | some a, some key => a.holds key
  | _, _ => some (.node root)

namespace Chained

theorem nil : Chained calls root [] [] :=
  ⟨rfl, fun _ h => (nomatch h), fun _ _ _ h => (nomatch h)⟩

/-- One container more: what is held at the end, or what became of it. -/
theorem snoc {containers : List (Ancestor (Numbered α))} {path : List PathKey}
    (h : Chained calls root containers path) {held b : Ancestor (Numbered α)}
    (last : lastHeld root containers path = some held) (becomes : Becomes calls path held b)
    (key : PathKey) : Chained calls root (containers ++ [b]) (path ++ [key]) := by
  have length := h.length
  refine ⟨by simp [length], fun a ha => ?_, fun i a d ha hd => ?_⟩
  · rcases List.eq_nil_or_concat containers with rfl | ⟨cs, z, rfl⟩
    · obtain rfl : path = [] := List.length_eq_zero_iff.1 length.symm
      obtain rfl : b = a := Option.some.inj ha
      obtain rfl : Ancestor.node root = held := Option.some.inj last
      exact becomes
    · rw [List.getElem?_append_left (by simp)] at ha
      exact h.first a ha
  · have bound : i + 1 < containers.length + 1 := by
      have := (List.getElem?_eq_some_iff.1 hd).1
      simpa using this
    rw [List.getElem?_append_left (by omega)] at ha
    rw [List.take_append_of_le_length (by omega), List.getElem?_append_left (by omega)]
    by_cases inner : i + 1 < containers.length
    · rw [List.getElem?_append_left inner] at hd
      exact h.further i a d ha hd
    · -- the container is the last one so far
      have index : i + 1 = containers.length := by omega
      have whole : path.take (i + 1) = path := List.take_of_length_le (by omega)
      obtain rfl : b = d := by simpa [index] using hd
      have ends : containers.getLast? = some a := by
        rw [List.getLast?_eq_getElem?, ← index]; exact ha
      obtain ⟨k, hk⟩ : ∃ k, path[i]? = some k := ⟨path[i], List.getElem?_eq_getElem (by omega)⟩
      have key : path.getLast? = some k := by
        rw [List.getLast?_eq_getElem?, ← length, ← index]; exact hk
      rw [lastHeld, ends, key] at last
      rw [whole]
      exact ⟨k, held, hk, last, becomes⟩

end Chained

theorem lastHeld_concat (containers : List (Ancestor (Numbered α))) (path : List PathKey)
    (a : Ancestor (Numbered α)) (key : PathKey) :
    lastHeld root (containers ++ [a]) (path ++ [key]) = a.holds key := by
  rw [lastHeld, List.getLast?_concat, List.getLast?_concat]

/-- The node stands at the place: the containers of the place lead to it. -/
structure Placed (calls : List (Encounter α)) (root : Tree (Numbered α))
    (c : Context (Numbered α)) (t : Tree (Numbered α)) : Prop where
  chained : Chained calls root c.outer c.path
  held : lastHeld root c.outer c.path = some (.node t)
  ends : c = .root ∨ ∃ a key path, c.parent = some a ∧ c.key = some key ∧ c.path = path ++ [key]

namespace Placed
variable {c : Context (Numbered α)} {t u : Tree (Numbered α)} {a : Action α}

/-- From a node to its children. -/
theorem child (h : Placed calls root c t) (called : ⟨⟨false, c, t⟩, a⟩ ∈ calls)
    (opens : a.Opens t u) (fits : u.Fits) {x : Context (Numbered α) × Tree (Numbered α)}
    (hx : x ∈ c.below u) : Placed calls root x.1 x.2 := by
  obtain ⟨f, hf, i, item, place⟩ := Context.mem_below hx
  obtain ⟨c', v⟩ := x
  obtain rfl : c' = c.inSlot u f.1 f.2 i := place
  -- the node itself is the next container, in the form that the call gave it
  have owner := h.chained.snoc h.held (.node called rfl opens) (.field f.1.key)
  by_cases many : f.1.arity = .many
  · have slot : c.inSlot u f.1 f.2 i = c.item u f.1 f.2 i := by rw [Context.inSlot, many]
    have outer : (c.item u f.1 f.2 i).outer = c.outer ++ [.node u] ++ [.list f.2] := rfl
    have path : (c.item u f.1 f.2 i).path = c.path ++ [.field f.1.key] ++ [.index i] := by
      rw [List.append_assoc]; rfl
    have held : lastHeld root (c.outer ++ [.node u]) (c.path ++ [.field f.1.key]) =
        some (.list f.2) := by
      rw [lastHeld_concat]
      exact Ancestor.holds_list fits hf many
    rw [slot]
    refine ⟨?_, ?_, .inr ⟨_, _, _, rfl, rfl, path⟩⟩
    · rw [outer, path]
      exact owner.snoc held (.list f.2) (.index i)
    · rw [outer, path, lastHeld_concat]
      exact Ancestor.holds_item item
  · have slot : c.inSlot u f.1 f.2 i = c.child u f.1 := by
      rw [Context.inSlot]
      split
      · next h => exact absurd h many
      · rfl
    have only := (fits.fields_holds f hf).single many item
    rw [slot]
    refine ⟨owner, ?_, .inr ⟨_, _, _, rfl, rfl, rfl⟩⟩
    have held : lastHeld root (c.outer ++ [.node u]) (c.path ++ [.field f.1.key]) =
        some (.node v) := by
      rw [lastHeld_concat]
      exact Ancestor.holds_single fits hf many only
    exact held

theorem isRight (h : Placed calls root c t) : c.IsRight calls root := by
  obtain rfl | ⟨a, key, path, hparent, hkey, hpath⟩ := h.ends
  · exact ⟨fun _ => ⟨rfl, rfl, rfl⟩, fun h => absurd rfl h, fun h => absurd rfl h,
      h.chained.first, h.chained.further⟩
  · have length := h.chained.length
    have outer : c.outer.length = c.ancestors.length + 1 := by
      rw [Context.outer, hparent, Option.toList_some, List.length_append, List.length_singleton]
    refine ⟨fun empty => ?_, fun _ => ?_, fun _ => ?_, h.chained.first, h.chained.further⟩
    · rw [hpath] at empty
      simp at empty
    · rw [hkey, hparent, hpath, List.getLast?_concat]
      exact ⟨rfl, rfl⟩
    · omega

theorem isPlaceOf (h : Placed calls root c t) : c.IsPlaceOf root t := by
  have held := h.held
  obtain rfl | ⟨a, key, path, hparent, hkey, hpath⟩ := h.ends
  · have node : Ancestor.node root = .node t := Option.some.inj held
    exact ⟨fun _ => (Ancestor.node.inj node).symm, fun a key ha => nomatch ha⟩
  · refine ⟨fun empty => ?_, fun a' key' ha' hkey' => ?_⟩
    · rw [hpath] at empty
      simp at empty
    · obtain rfl : a = a' := Option.some.inj (hparent.symm.trans ha')
      obtain rfl : key = key' := Option.some.inj (hkey.symm.trans hkey')
      rw [Context.outer, hparent, Option.toList_some, hpath, lastHeld_concat] at held
      exact held

end Placed

/-- All nodes that are reached keep to the table of slots and stand at their places. -/
theorem Reached.placed (hroot : root.WellFormed) (hreplaced : WellReplaced calls)
    {c : Context (Numbered α)} {t : Tree (Numbered α)} (h : Reached calls root c t) :
    t.WellFormed ∧ Placed calls root c t := by
  induction h with
  | root => exact ⟨hroot, .nil, rfl, .inl rfl⟩
  | @child c t u a x above called opens mem ih =>
    have wellFormed := opens.wellFormed ih.1 fun r hr => hreplaced _ called rfl r hr
    exact ⟨wellFormed.child x mem, ih.2.child called opens wellFormed.fits mem⟩

/-- Without replacements the path leads from the root to the node. -/
theorem Reached.follow (kept : ∀ k ∈ calls, k.leaving = false → ∀ r, k.answer ≠ .replace r)
    (hroot : root.WellFormed) {c : Context (Numbered α)} {t : Tree (Numbered α)}
    (h : Reached calls root c t) : (Ancestor.node root).follow c.path = some (.node t) := by
  have hreplaced : WellReplaced calls := fun k hk entering r hr => absurd hr (kept k hk entering r)
  induction h with
  | root => rfl
  | @child c t u a x above called opens mem ih =>
    have wellFormed := (above.placed hroot hreplaced).1
    cases opens with
    | replace r next => exact absurd rfl (kept _ called rfl r)
    | keep =>
      obtain ⟨key, steps, path, leads⟩ := Context.exists_steps wellFormed.fits mem
      rw [path, Ancestor.follow_append, ih, Option.bind_some, leads]

/-! ## Calls on a tour -/

theorem Pieced.forall {ι κ : Type} {T : ι → List κ → Prop} {P : κ → Prop} {xs : List ι}
    {ks : List κ} (h : Pieced T xs ks) (each : ∀ x ∈ xs, ∀ ls, T x ls → ls ⊆ ks → ∀ k ∈ ls, P k) :
    ∀ k ∈ ks, P k := by
  induction h with
  | nil => exact fun k hk => absurd hk List.not_mem_nil
  | @cons x xs ks ls first rest ih =>
    rw [List.forall_mem_append]
    constructor
    · exact each x List.mem_cons_self ks first (List.subset_append_left ks ls)
    · refine ih fun y hy js hjs sub => ?_
      have sub' := List.Subset.trans sub (List.subset_append_right ks ls)
      exact each y (List.mem_cons_of_mem x hy) js hjs sub'

/-- Along a tour of a node that is reached, hooks are called at nodes that are reached. -/
theorem Tour.reached {depth : Nat} {c : Context (Numbered α)} {t : Tree (Numbered α)}
    {part : List (Encounter α)} (h : Tour depth (c, t) part) (subset : part ⊆ calls)
    (reached : Reached calls root c t) :
    ∀ k ∈ part, ∃ u, Reached calls root k.place u ∧ (k.leaving = false → k.node = u) := by
  induction depth generalizing c t part with
  | zero =>
    obtain rfl : part = [] := h
    exact fun k hk => absurd hk List.not_mem_nil
  | succ depth ih =>
    obtain rfl | ⟨a, inner, last, rfl, tours, leaves⟩ := h
    · exact fun k hk => absurd hk List.not_mem_nil
    · have called := subset List.mem_cons_self
      have subset' : inner ⊆ calls := fun k hk =>
        subset (List.mem_cons_of_mem _ (List.mem_append_left last hk))
      rw [List.forall_mem_cons, List.forall_mem_append]
      refine ⟨⟨t, reached, fun _ => rfl⟩, ?_, fun k hk => ?_⟩
      · obtain rfl | ⟨u, opens, pieces⟩ := tours
        · exact fun k hk => absurd hk List.not_mem_nil
        · refine pieces.forall fun x hx part tour sub => ?_
          exact ih tour (List.Subset.trans sub subset') (reached.child called opens hx)
      · obtain ⟨leaving, place⟩ := leaves k hk
        refine ⟨t, place ▸ reached, fun entering => ?_⟩
        rw [leaving] at entering
        exact nomatch entering

/-! ## Paths apart -/

/-- No path goes on from both. -/
def Apart (p q : List PathKey) : Prop := ∀ r, p <+: r → ¬ q <+: r

theorem apart_of_ne (path : List PathKey) {k l : PathKey} (ne : k ≠ l) (p q : List PathKey) :
    Apart (path ++ k :: p) (path ++ l :: q) := by
  rintro r ⟨p', rfl⟩ ⟨q', h⟩
  rw [List.append_assoc, List.append_assoc] at h
  have heads := List.append_cancel_left h
  exact ne (List.cons.inj heads).1.symm

/-- The children of a node stand at paths that are apart. -/
theorem Context.below_apart (c : Context α) {t : Tree α} (h : t.Fits) :
    (c.below t).Pairwise fun x y => Apart x.1.path y.1.path := by
  have starts : ∀ f, ∀ x ∈ c.belowIn t f,
      ∃ steps, x.1.path = c.path ++ .field f.1.key :: steps := by
    intro f x hx
    obtain ⟨y, -, rfl⟩ := List.mem_map.1 hx
    rw [path_inSlot]
    split
    · exact ⟨[.index y.2], rfl⟩
    · exact ⟨[], rfl⟩
  refine List.pairwise_flatMap.2 ⟨fun f hf => ?_, ?_⟩
  · by_cases many : f.1.arity = .many
    · have places := List.pairwise_map.1 (List.nodup_zipIdx_map_snd f.2)
      refine List.pairwise_map.2 (places.imp fun {y z} ne => ?_)
      have path : ∀ i, (c.inSlot t f.1 f.2 i).path =
          (c.path ++ [.field f.1.key]) ++ .index i :: [] := by
        intro i
        rw [path_inSlot, many, List.append_assoc]
        rfl
      rw [path, path]
      exact apart_of_ne _ (fun same => ne (PathKey.index.inj same)) _ _
    · -- at most one child
      rw [belowIn]
      rcases hts : f.2 with _ | ⟨u, us⟩
      · exact .nil
      · have first : f.2[0]? = some u := by rw [hts]; rfl
        have only := (h.fields_holds f hf).single many first
        obtain rfl : us = [] := (List.cons.inj (hts.symm.trans only)).2
        exact List.pairwise_singleton _ _
  · refine (List.pairwise_map.1 h.fields_keys_nodup).imp fun {f g} ne x hx y hy => ?_
    obtain ⟨p, hp⟩ := starts f x hx
    obtain ⟨q, hq⟩ := starts g y hy
    rw [hp, hq]
    exact apart_of_ne c.path (fun same => ne (PathKey.field.inj same)) p q

theorem enteredPaths_append (calls calls' : List (Encounter α)) :
    enteredPaths (calls ++ calls') = enteredPaths calls ++ enteredPaths calls' := by
  rw [enteredPaths, List.filter_append, List.map_append]; rfl

theorem wellReplaced_append {calls calls' : List (Encounter α)} :
    WellReplaced (calls ++ calls') ↔ WellReplaced calls ∧ WellReplaced calls' := by
  rw [WellReplaced, List.forall_mem_append]; rfl

/-- Paths that are entered below some places: none twice, and all below the places. -/
structure Spread (places : List (Context (Numbered α))) (calls : List (Encounter α)) : Prop where
  nodup : (enteredPaths calls).Nodup
  below : ∀ p ∈ enteredPaths calls, ∃ c ∈ places, c.path <+: p

theorem Pieced.spread {T : Context (Numbered α) × Tree (Numbered α) → List (Encounter α) → Prop}
    {xs : List (Context (Numbered α) × Tree (Numbered α))} {calls : List (Encounter α)}
    (h : Pieced T xs calls) (hreplaced : WellReplaced calls)
    (each : ∀ x ∈ xs, ∀ part, T x part → WellReplaced part → Spread [x.1] part)
    (apart : xs.Pairwise fun x y => Apart x.1.path y.1.path) : Spread (xs.map Prod.fst) calls := by
  induction h with
  | nil => exact ⟨.nil, fun p hp => absurd hp List.not_mem_nil⟩
  | @cons x xs ks ls first rest ih =>
    rw [wellReplaced_append] at hreplaced
    rw [List.forall_mem_cons] at each
    obtain ⟨away, apart⟩ := List.pairwise_cons.1 apart
    have one := each.1 ks first hreplaced.1
    have others := ih hreplaced.2 each.2 apart
    have one_below : ∀ p ∈ enteredPaths ks, x.1.path <+: p := by
      intro p hp
      obtain ⟨c, hc, below⟩ := one.below p hp
      exact List.mem_singleton.1 hc ▸ below
    constructor
    · rw [enteredPaths_append]
      refine List.nodup_append.2 ⟨one.nodup, others.nodup, fun p hp q hq same => ?_⟩
      obtain ⟨c, hc, below⟩ := others.below q hq
      obtain ⟨y, hy, rfl⟩ := List.mem_map.1 hc
      exact away y hy q (same ▸ one_below p hp) below
    · rw [enteredPaths_append, List.map_cons]
      intro p hp
      rcases List.mem_append.1 hp with hp | hp
      · exact ⟨x.1, List.mem_cons_self, one_below p hp⟩
      · obtain ⟨c, hc, below⟩ := others.below p hp
        exact ⟨c, List.mem_cons_of_mem x.1 hc, below⟩

theorem Tour.spread {depth : Nat} {c : Context (Numbered α)} {t : Tree (Numbered α)}
    {part : List (Encounter α)} (h : Tour depth (c, t) part) (ht : t.WellFormed)
    (hreplaced : WellReplaced part) : Spread [c] part := by
  induction depth generalizing c t part with
  | zero =>
    obtain rfl : part = [] := h
    exact ⟨.nil, fun p hp => absurd hp List.not_mem_nil⟩
  | succ depth ih =>
    obtain rfl | ⟨a, inner, last, rfl, tours, leaves⟩ := h
    · exact ⟨.nil, fun p hp => absurd hp List.not_mem_nil⟩
    · have leaving : last.filter (fun k => !k.leaving) = [] := by
        refine List.filter_eq_nil_iff.2 fun k hk => ?_
        rw [(leaves k hk).1]
        exact Bool.false_ne_true
      have paths : enteredPaths (⟨⟨false, c, t⟩, a⟩ :: (inner ++ last)) =
          c.path :: enteredPaths inner := by
        rw [enteredPaths, List.filter_cons_of_pos rfl, List.filter_append, leaving,
          List.append_nil]
        rfl
      -- what is entered below stands at longer paths
      have longer : (enteredPaths inner).Nodup ∧
          ∀ p ∈ enteredPaths inner, ∃ key steps, p = c.path ++ key :: steps := by
        obtain rfl | ⟨u, opens, pieces⟩ := tours
        · exact ⟨.nil, fun p hp => absurd hp List.not_mem_nil⟩
        · have called := hreplaced _ List.mem_cons_self rfl
          have wellFormed := opens.wellFormed ht called
          have hinner : WellReplaced inner := fun k hk =>
            hreplaced k (List.mem_cons_of_mem _ (List.mem_append_left last hk))
          have spread := pieces.spread hinner (fun x hx part tour replaced =>
            ih tour (wellFormed.child x hx) replaced) (c.below_apart wellFormed.fits)
          refine ⟨spread.nodup, fun p hp => ?_⟩
          obtain ⟨d, hd, rest, rfl⟩ := spread.below p hp
          obtain ⟨x, hx, rfl⟩ := List.mem_map.1 hd
          obtain ⟨key, steps, path, -⟩ := Context.exists_steps wellFormed.fits hx
          rw [path, List.append_assoc]
          exact ⟨key, steps ++ rest, rfl⟩
      constructor
      · rw [paths]
        refine List.nodup_cons.2 ⟨fun again => ?_, longer.1⟩
        obtain ⟨key, steps, same⟩ := longer.2 c.path again
        have := congrArg List.length same
        rw [List.length_append, List.length_cons] at this
        omega
      · rw [paths]
        refine List.forall_mem_cons.2 ⟨⟨c, List.mem_cons_self, List.prefix_rfl⟩, fun p hp => ?_⟩
        obtain ⟨key, steps, rfl⟩ := longer.2 p hp
        exact ⟨c, List.mem_cons_self, List.prefix_append _ _⟩

end

/-- The contexts of a visit are right. At the root there is no key and no container;
below it the path ends with the key, and there is one ancestor less than the path has
steps. The first container is the root and each further one is what the one before it
holds under the key between them, both as their own entering hooks left them. A node
is entered as the parent holds it under the key. No path is entered twice, and while
no entering hook replaces a node, a path leads from the root to the node entered at
it. -/
theorem visit_contexts_isRight (hooks : Hooks σ α) (depth next : Nat) (root : Tree (Numbered α))
    (state : σ) (hroot : root.WellFormed)
    (hreplaced : WellReplaced (hooks.encounters depth next root state)) :
    (∀ k ∈ hooks.encounters depth next root state,
      k.place.IsRight (hooks.encounters depth next root state) root ∧
        (k.leaving = false → k.place.IsPlaceOf root k.node)) ∧
    (enteredPaths (hooks.encounters depth next root state)).Nodup ∧
    ((∀ k ∈ hooks.encounters depth next root state, k.leaving = false →
        ∀ r, k.answer ≠ .replace r) →
      ∀ k ∈ hooks.encounters depth next root state, k.leaving = false →
        (Ancestor.node root).follow k.place.path = some (.node k.node)) := by
  have tour := encounters_tour hooks depth next root state
  generalize hooks.encounters depth next root state = calls at *
  have reached := tour.reached (List.Subset.refl calls) .root
  refine ⟨fun k hk => ?_, (tour.spread hroot hreplaced).nodup, fun kept k hk entering => ?_⟩
  · obtain ⟨t, ht, entered⟩ := reached k hk
    have placed := (ht.placed hroot hreplaced).2
    exact ⟨placed.isRight, fun entering => entered entering ▸ placed.isPlaceOf⟩
  · obtain ⟨t, ht, entered⟩ := reached k hk
    rw [entered entering]
    exact ht.follow kept hroot

/-! ## A visit that expands nodes -/

/-- A list of one integer, all new. -/
def oneInList : Tree (Draft Unit) := (Value.list [.int "1" ()] ()).toTree.fresh

/-- Puts a list of one integer in the place of every null. -/
def expandNulls : Hooks Unit Unit where
  enter _ t := pure (if t.kind = .nullValue then .replace oneInList else .keep)
  leave := .keep

/-- What the answer puts in the place of a node. -/
def Action.replacement? : Action α → Option (Tree (Draft α))
  | .replace r => some r
  | _ => none

/-- In the list of null, the null is entered at the first place of the list, and the
integer at the first place of the list that is there instead. In the list of an
integer, the paths lead to what is entered. -/
theorem expandNulls_contexts_isRight :
    ((∀ k ∈ expandNulls.encounters 3 2 (numberedList [.null ()]) (),
        k.place.IsRight (expandNulls.encounters 3 2 (numberedList [.null ()]) ())
          (numberedList [.null ()])) ∧
      (enteredPaths (expandNulls.encounters 3 2 (numberedList [.null ()]) ())).Nodup ∧
      enteredPaths (expandNulls.encounters 3 2 (numberedList [.null ()]) ()) =
        [[], [.field "values", .index 0],
          [.field "values", .index 0, .field "values", .index 0]]) ∧
    ∀ k ∈ expandNulls.encounters 3 2 (numberedList [.int "1" ()]) (), k.leaving = false →
      (Ancestor.node (numberedList [.int "1" ()])).follow k.place.path = some (.node k.node) := by
  have list_wellFormed : oneInList.WellFormed :=
    (Tree.wellFormed_map _ _).2 (Value.wellFormed_toTree _)
  have replaced : ∀ root, (∀ k ∈ expandNulls.encounters 3 2 root (),
      k.answer.replacement? = none ∨ k.answer.replacement? = some oneInList) →
        WellReplaced (expandNulls.encounters 3 2 root ()) := by
    intro root expansions k hk _ r hr
    have expansion := expansions k hk
    rw [hr] at expansion
    rcases expansion with none | list
    · exact nomatch none
    · exact Option.some.inj list ▸ list_wellFormed
  obtain ⟨right, nodup, -⟩ := visit_contexts_isRight expandNulls 3 2 (numberedList [.null ()]) ()
    (Tree.wellFormed_numbered (Value.wellFormed_toTree _)) (replaced _ (by decide +kernel))
  obtain ⟨-, -, leads⟩ := visit_contexts_isRight expandNulls 3 2 (numberedList [.int "1" ()]) ()
    (Tree.wellFormed_numbered (Value.wellFormed_toTree _)) (replaced _ (by decide +kernel))
  have kept : ∀ k ∈ expandNulls.encounters 3 2 (numberedList [.int "1" ()]) (),
      k.answer.replacement? = none := by decide +kernel
  refine ⟨⟨fun k hk => (right k hk).1, nodup, by decide +kernel⟩, leads fun k hk _ r hr => ?_⟩
  have none := kept k hk
  rw [hr] at none
  exact nomatch none

end QueryDoc
