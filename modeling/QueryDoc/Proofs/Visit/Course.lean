import QueryDoc.Proofs.Visit.Itinerary

/-!
# The course of the calls

A hook ends a visit by its answer, or because what it wants for a node is refused at
the place of the node. Up to there the calls at some nodes and below them follow the
way through the nodes, without what an entering hook left out. The courses at places
that are apart are put together in a row, and those at the children of a node between
the two calls at the node.
-/
namespace QueryDoc

variable {α : Type}

/-! ## What a place refuses -/

/-- The slot that holds a node, the kind of its owner, and the key of the node in it. -/
structure Seat (α : Type) where
  owner : Kind
  slot : Slot
  key : PathKey
  held : Tree α

/-- The seat that a context names; none for the root. -/
def Context.seat? (c : Context α) : Option (Seat α) :=
  match c.parent, c.key with
  | some (.node owner), some (.field key) => do
    let f ← owner.fields.find? fun f => f.1.key == key
    return ⟨owner.kind, f.1, .field key, ← f.2.head?⟩
  | some (.list ts), some (.index i) =>
    match c.ancestors.getLast?, c.path.dropLast.getLast? with
    | some (.node owner), some (.field key) => do
      let f ← owner.fields.find? fun f => f.1.key == key
      return ⟨owner.kind, f.1, .index i, ← ts[i]?⟩
    | _, _ => none
  | _, _ => none

/-- Why a seat refuses what is to be put in the place of its node. The node itself is
never refused. -/
def Seat.refusal (s : Seat (Numbered α)) : Option (Tree (Draft α)) → Option VisitError
  | none => if s.slot.arity = .required then some (.removedRequired s.owner s.key) else none
  | some r =>
    if r.info.id = some s.held.id then none
    else if s.slot.category.admits r.kind then none
    else some (.invalidReplacement s.key s.slot.category r.kind)

/-- Why a place refuses what is to be put there, if it does. The root can be replaced by
any node but cannot be removed. -/
def Context.refusal (c : Context (Numbered α)) (after : Option (Tree (Draft α))) :
    Option VisitError :=
  match c.seat? with
  | some s => s.refusal after
  | none => if after.isNone then some .removedRoot else none

/-- How the call ends the visit, if it does: the hook breaks it off, fails, or wants an
edit that is refused. What an entering hook puts in the place of a node is visited before
it can be refused. -/
def Encounter.ends (k : Encounter α) : Option Stop :=
  match k.answer with
  | .keep => none
  | .skip => none
  | .remove => (k.place.refusal none).map .failed
  | .replace r => if k.leaving then (k.place.refusal (some r)).map .failed else none
  | .stop => some .broken
  | .fail message => some (.failed (.callback message))

/-- The answer leaves out what is below the node that is entered. -/
def Action.prunes : Action α → Bool
  | .skip => true
  | .remove => true
  | _ => false

section
variable {t u : Tree α} (fits : t.Fits) {f : Slot × List (Tree α)} (hf : f ∈ t.fields)

include fits hf

theorem Context.seat_child (c : Context α) (only : f.2 = [u]) :
    (c.child t f.1).seat? = some ⟨t.kind, f.1, .field f.1.key, u⟩ := by
  have found := fits.find_field hf
  simp [seat?, child, found, only]

theorem Context.seat_item (c : Context α) {i : Nat} (item : f.2[i]? = some u) :
    (c.item t f.1 f.2 i).seat? = some ⟨t.kind, f.1, .index i, u⟩ := by
  have found := fits.find_field hf
  simp [seat?, Context.item, found, item]

/-- A child of a node stands in the slot that holds it. -/
theorem Context.seat_inSlot (c : Context α) {i : Nat} (item : f.2[i]? = some u) :
    (c.inSlot t f.1 f.2 i).seat? = some ⟨t.kind, f.1, Walk.keyOf f.1 i, u⟩ := by
  rw [inSlot, Walk.keyOf]
  have only : f.1.arity ≠ .many → f.2 = [u] := fun one =>
    (fits.fields_holds f hf).single one item
  cases arity : f.1.arity with
  | many => exact seat_item fits hf c item
  | required => exact seat_child fits hf c (only (by simp [arity]))
  | optional => exact seat_child fits hf c (only (by simp [arity]))

end

/-! ## Courses -/

/-- The nodes that are entered, with their paths. -/
def enteredNodes (calls : List (Encounter α)) : List (List PathKey × Tree (Numbered α)) :=
  (calls.filter fun k => !k.leaving).map fun k => (k.place.path, k.node)

/-- The path goes on from that of a node whose entering hook left out what is below. -/
def leftOut (calls : List (Encounter α)) (path : List PathKey) : Bool :=
  calls.any fun k => !k.leaving && k.answer.prunes && decide (Under k.place.path path)

/-- The point of the way through the tree at which the hook is called. -/
def Encounter.waypoint (k : Encounter α) : Bool × List PathKey := (k.leaving, k.place.path)

/-- The node of the call is left just if its entering hook says so and no call below it
ends the visit. -/
def Encounter.Bracketed (calls : List (Encounter α)) (k : Encounter α) : Prop :=
  (∃ j ∈ calls, j.leaving = true ∧ j.place.path = k.place.path) ↔
    k.answer = .keep ∧ ∀ j ∈ calls, Under k.place.path j.place.path → j.ends = none

/-- The visit goes on after all of the calls, or stops with the last of them. -/
inductive Ended : Option Stop → List (Encounter α) → Prop where
  | running {calls : List (Encounter α)} (goes : ∀ k ∈ calls, k.ends = none) : Ended none calls
  | stopped {calls : List (Encounter α)} (goes : ∀ k ∈ calls, k.ends = none)
    {last : Encounter α} {e : Stop} (ends : last.ends = some e) : Ended (some e) (calls ++ [last])

/-- The calls at some nodes and below them, up to a stop if there is one. -/
structure Course (xs : List (Context (Numbered α) × Tree (Numbered α))) (e : Option Stop)
    (part : List (Encounter α)) : Prop where
  order : (part.map Encounter.waypoint).Sublist (itineraryOf xs)
  entered : enteredNodes part <+: (walkOf xs).filter fun n => !leftOut part n.1
  complete : e = none → enteredNodes part = (walkOf xs).filter fun n => !leftOut part n.1
  bracketed : ∀ k ∈ part, k.leaving = false → k.Bracketed part
  opened : ∀ j ∈ part, j.leaving = true →
    ∃ k ∈ part, k.leaving = false ∧ k.place.path = j.place.path
  after : part.Pairwise fun k j => k.leaving = true → ¬ k.place.path <+: j.place.path
  ended : Ended e part

section
variable {calls calls' before after : List (Encounter α)} {path : List PathKey}

theorem enteredNodes_append (calls calls' : List (Encounter α)) :
    enteredNodes (calls ++ calls') = enteredNodes calls ++ enteredNodes calls' := by
  rw [enteredNodes, List.filter_append, List.map_append]; rfl

theorem enteredNodes_singleton {k : Encounter α} (entering : k.leaving = false) :
    enteredNodes [k] = [(k.place.path, k.node)] := by
  rw [enteredNodes, List.filter_cons_of_pos (by rw [entering]; rfl)]
  rfl

theorem leftOut_append (calls calls' : List (Encounter α)) (path : List PathKey) :
    leftOut (calls ++ calls') path = (leftOut calls path || leftOut calls' path) :=
  List.any_append

theorem leftOut_eq_false (h : ∀ k ∈ calls, k.leaving = false → k.answer.prunes = true →
    ¬ Under k.place.path path) : leftOut calls path = false := by
  refine List.any_eq_false.2 fun k hk out => ?_
  simp only [Bool.and_eq_true, Bool.not_eq_true', decide_eq_true_eq] at out
  exact h k hk out.1.1 out.1.2 out.2

/-- A node that is not left out itself comes before what is not left out below it. -/
theorem filter_walkOf_singleton {c : Context (Numbered α)} {t : Tree (Numbered α)}
    (here : leftOut calls c.path = false) :
    (walkOf [(c, t)]).filter (fun n => !leftOut calls n.1) =
      (c.path, t) :: (walkOf (c.below t)).filter fun n => !leftOut calls n.1 := by
  rw [walkOf_cons, List.filter_cons_of_pos (by rw [here]; rfl)]
  exact congrArg _ (congrArg _ (List.append_nil _))

/-- No hook is called at the path or below it. -/
def Quiet (path : List PathKey) (calls : List (Encounter α)) : Prop :=
  ∀ k ∈ calls, ¬ path <+: k.place.path

/-- Calls elsewhere do not count for whether a node is left. -/
theorem Encounter.Bracketed.extend {k : Encounter α} (h : k.Bracketed calls)
    (hb : Quiet k.place.path before) (ha : Quiet k.place.path after) :
    k.Bracketed (before ++ (calls ++ after)) := by
  have inside : ∀ j ∈ before ++ (calls ++ after), k.place.path <+: j.place.path → j ∈ calls := by
    intro j hj under
    rw [List.mem_append, List.mem_append] at hj
    obtain hj | hj | hj := hj
    · exact absurd under (hb j hj)
    · exact hj
    · exact absurd under (ha j hj)
  have outside : ∀ j ∈ calls, j ∈ before ++ (calls ++ after) := fun j hj =>
    List.mem_append_right before (List.mem_append_left after hj)
  constructor
  · rintro ⟨j, hj, leaving, same⟩
    have mem := inside j hj (same ▸ List.prefix_rfl)
    obtain ⟨keeps, goes⟩ := h.1 ⟨j, mem, leaving, same⟩
    exact ⟨keeps, fun l hl under => goes l (inside l hl under.1) under⟩
  · rintro ⟨keeps, goes⟩
    obtain ⟨j, hj, left⟩ := h.2 ⟨keeps, fun l hl => goes l (outside l hl)⟩
    exact ⟨j, outside j hj, left⟩

theorem Ended.goes (h : Ended none calls) : ∀ k ∈ calls, k.ends = none := by
  cases h with
  | running goes => exact goes

theorem Ended.append {e : Option Stop} (h : Ended none calls) (h' : Ended e calls') :
    Ended e (calls ++ calls') := by
  cases h' with
  | running goes => exact .running (List.forall_mem_append.2 ⟨h.goes, goes⟩)
  | stopped goes ends =>
    rw [← List.append_assoc]
    exact .stopped (List.forall_mem_append.2 ⟨h.goes, goes⟩) ends

/-- Calls none of which ends the visit do not stop it. -/
theorem Ended.eq_none {e : Option Stop} (h : Ended e calls) (goes : ∀ k ∈ calls, k.ends = none) :
    e = none := by
  cases h with
  | running _ => rfl
  | @stopped _ _ last e ends =>
    rw [goes last (List.mem_append_right _ (List.mem_singleton_self _))] at ends
    exact nomatch ends

/-- A call that ends the visit is the last one, and the visit stops for its reason. -/
theorem Ended.of_ends {e : Option Stop} {s : Stop} (h : Ended e calls) {k : Encounter α}
    (hk : k ∈ calls) (ends : k.ends = some s) : e = some s ∧ calls.getLast? = some k := by
  cases h with
  | running goes =>
    rw [goes k hk] at ends
    exact nomatch ends
  | stopped goes lastEnds =>
    rcases List.mem_append.1 hk with hk | hk
    · rw [goes k hk] at ends
      exact nomatch ends
    · obtain rfl := List.mem_singleton.1 hk
      exact ⟨lastEnds.symm.trans ends, List.getLast?_concat⟩

/-- A single call. -/
theorem Ended.one (k : Encounter α) : Ended k.ends [k] := by
  cases ends : k.ends with
  | none => exact .running (List.forall_mem_singleton.2 ends)
  | some e => exact .stopped (fun _ h => absurd h List.not_mem_nil) ends

end

namespace Course
variable {xs ys : List (Context (Numbered α) × Tree (Numbered α))} {e : Option Stop}
  {part part' : List (Encounter α)}

theorem nil : Course [] none ([] : List (Encounter α)) where
  order := List.Sublist.refl _
  entered := List.prefix_rfl
  complete _ := rfl
  bracketed _ hk := absurd hk List.not_mem_nil
  opened _ hj := absurd hj List.not_mem_nil
  after := .nil
  ended := .running fun _ hk => absurd hk List.not_mem_nil

/-- The hooks are called at the places or below them. -/
theorem within (h : Course xs e part) : ∀ k ∈ part, ∃ x ∈ xs, x.1.path <+: k.place.path :=
  fun _ hk => exists_of_mem_itineraryOf (h.order.subset (List.mem_map_of_mem hk))

theorem quiet (h : Course xs e part) {q : List PathKey} (apart : ∀ x ∈ xs, Apart x.1.path q) :
    Quiet q part := by
  intro k hk under
  obtain ⟨x, hx, here⟩ := h.within k hk
  exact apart x hx k.place.path here under

/-- Nothing is left out elsewhere. -/
theorem leftOut_elsewhere (h : Course xs e part) {q p : List PathKey}
    (apart : ∀ x ∈ xs, Apart x.1.path q) (under : q <+: p) : leftOut part p = false := by
  refine leftOut_eq_false fun k hk _ _ out => ?_
  obtain ⟨x, hx, here⟩ := h.within k hk
  exact apart x hx p (here.trans out.1) under

/-- Calls at places that are apart, in a row. -/
theorem append (h : Course xs none part) (h' : Course ys e part')
    (apart : ∀ x ∈ xs, ∀ y ∈ ys, Apart x.1.path y.1.path) :
    Course (xs ++ ys) e (part ++ part') := by
  have left : (walkOf xs).filter (fun n => !leftOut (part ++ part') n.1) = enteredNodes part := by
    rw [h.complete rfl]
    refine List.filter_congr fun n hn => ?_
    obtain ⟨x, hx, under⟩ := exists_of_mem_walkOf hn
    have other := h'.leftOut_elsewhere (fun y hy => (apart x hx y hy).symm) under
    rw [leftOut_append, other, Bool.or_false]
  have right : (walkOf ys).filter (fun n => !leftOut (part ++ part') n.1) =
      (walkOf ys).filter fun n => !leftOut part' n.1 := by
    refine List.filter_congr fun n hn => ?_
    obtain ⟨y, hy, under⟩ := exists_of_mem_walkOf hn
    have other := h.leftOut_elsewhere (fun x hx => apart x hx y hy) under
    rw [leftOut_append, other, Bool.false_or]
  have quiet : ∀ k ∈ part, Quiet k.place.path part' := by
    intro k hk j hj under
    obtain ⟨x, hx, here⟩ := h.within k hk
    exact h'.quiet (fun y hy => (apart x hx y hy).symm) j hj (here.trans under)
  have quiet' : ∀ k ∈ part', Quiet k.place.path part := by
    intro k hk j hj under
    obtain ⟨y, hy, here⟩ := h'.within k hk
    exact h.quiet (fun x hx => apart x hx y hy) j hj (here.trans under)
  constructor
  · rw [List.map_append, itineraryOf_append]
    exact h.order.append h'.order
  · rw [walkOf_append, List.filter_append, left, right, enteredNodes_append]
    exact (List.prefix_append_right_inj _).2 h'.entered
  · intro all
    rw [walkOf_append, List.filter_append, left, right, enteredNodes_append, h'.complete all]
  · refine List.forall_mem_append.2 ⟨fun k hk entering => ?_, fun k hk entering => ?_⟩
    · have bracketed : k.Bracketed ([] ++ (part ++ part')) :=
        (h.bracketed k hk entering).extend nofun (quiet k hk)
      exact bracketed
    · have bracketed : k.Bracketed (part ++ (part' ++ [])) :=
        (h'.bracketed k hk entering).extend (quiet' k hk) nofun
      rwa [List.append_nil] at bracketed
  · refine List.forall_mem_append.2 ⟨fun j hj leaving => ?_, fun j hj leaving => ?_⟩
    · obtain ⟨k, hk, entry⟩ := h.opened j hj leaving
      exact ⟨k, List.mem_append_left _ hk, entry⟩
    · obtain ⟨k, hk, entry⟩ := h'.opened j hj leaving
      exact ⟨k, List.mem_append_right _ hk, entry⟩
  · exact List.pairwise_append.2 ⟨h.after, h'.after, fun k hk j hj _ => quiet k hk j hj⟩
  · exact h.ended.append h'.ended

/-- Calls that stop before they come to more nodes. -/
theorem cut {s : Stop} (h : Course xs (some s) part)
    (ys : List (Context (Numbered α) × Tree (Numbered α))) : Course (xs ++ ys) (some s) part where
  order := by
    rw [itineraryOf_append]
    exact h.order.trans (List.sublist_append_left _ _)
  entered := by
    rw [walkOf_append, List.filter_append]
    exact h.entered.trans (List.prefix_append _ _)
  complete := nofun
  bracketed := h.bracketed
  opened := h.opened
  after := h.after
  ended := h.ended

/-- A call at a node whose children are left out, or that ends the visit. -/
theorem alone {k : Encounter α} (entering : k.leaving = false) (refrains : k.answer ≠ .keep)
    (stays : ∀ r, k.answer ≠ .replace r) : Course [(k.place, k.node)] k.ends [k] := by
  have here : leftOut [k] k.place.path = false :=
    leftOut_eq_false (List.forall_mem_singleton.2 fun _ _ under => under.2 rfl)
  have enters := ne_true_of_eq_false entering
  have nodes := enteredNodes_singleton entering
  have walk := filter_walkOf_singleton (t := k.node) here
  constructor
  · rw [itineraryOf_cons, List.map_singleton, Encounter.waypoint, entering]
    exact (List.nil_sublist _).cons_cons _
  · rw [nodes, walk]
    exact List.prefix_append [_] _
  · intro goes
    have prunes : k.answer.prunes = true := by
      revert refrains stays goes
      rw [Encounter.ends]
      cases k.answer with
      | keep => exact fun refrains => absurd rfl refrains
      | skip => exact fun _ _ _ => rfl
      | remove => exact fun _ _ _ => rfl
      | replace r => exact fun _ stays => absurd rfl (stays r)
      | stop => exact fun _ _ => nofun
      | fail message => exact fun _ _ => nofun
    have out : (walkOf (k.place.below k.node)).filter (fun n => !leftOut [k] n.1) = [] := by
      refine List.filter_eq_nil_iff.2 fun n hn => ?_
      obtain ⟨x, hx, further⟩ := exists_of_mem_walkOf hn
      have under := (Context.under_below hx).extend further
      have all : leftOut [k] n.1 = true := by
        refine List.any_eq_true.2 ⟨k, List.mem_singleton_self k, ?_⟩
        rw [entering, prunes, decide_eq_true under]
        rfl
      rw [all]
      exact Bool.false_ne_true
    rw [nodes, walk, out]
  · refine List.forall_mem_singleton.2 fun _ => ⟨?_, fun keeps => absurd keeps.1 refrains⟩
    rintro ⟨j, hj, leaving, -⟩
    rw [List.mem_singleton.1 hj] at leaving
    exact absurd leaving enters
  · exact List.forall_mem_singleton.2 fun leaving => absurd leaving enters
  · exact List.pairwise_singleton _ _
  · exact .one k

end Course

/-! ## Calls around others -/

/-- How the calls at a node are closed after those at its children: by no call if the
visit was stopped there, and else by a call of the leaving hook. -/
inductive Closing (c : Context (Numbered α)) :
    Option Stop → List (Encounter α) → Option Stop → Prop where
  | cut (s : Stop) : Closing c (some s) [] (some s)
  | leave {l : Encounter α} (leaving : l.leaving = true) (here : l.place = c) :
    Closing c none [l] l.ends

namespace Closing
variable {k : Encounter α} {e e' : Option Stop} {inner last : List (Encounter α)}

theorem here (h : Closing k.place e last e') : ∀ l ∈ last, l.leaving = true ∧ l.place = k.place := by
  cases h with
  | cut s => exact nofun
  | leave leaving here => exact List.forall_mem_singleton.2 ⟨leaving, here⟩

theorem sublist (h : Closing k.place e last e') :
    (last.map Encounter.waypoint).Sublist [(true, k.place.path)] := by
  cases h with
  | cut s => exact List.nil_sublist _
  | leave leaving here =>
    rw [List.map_singleton, Encounter.waypoint, leaving, here]

theorem pairwise (h : Closing k.place e last e') {R : Encounter α → Encounter α → Prop} :
    last.Pairwise R := by
  cases h with
  | cut s => exact .nil
  | leave leaving here => exact List.pairwise_singleton _ _

theorem ended (h : Closing k.place e last e') (goes : k.ends = none) (inside : Ended e inner) :
    Ended e' (k :: (inner ++ last)) := by
  have first : Ended none [k] := goes ▸ Ended.one k
  cases h with
  | cut s =>
    rw [List.append_nil]
    exact first.append inside
  | @leave l leaving here => exact first.append (inside.append (.one l))

/-- The calls at the node itself leave out nothing. -/
theorem leftOut_eq (h : Closing k.place e last e') (keeps : k.answer = .keep)
    (path : List PathKey) : leftOut (k :: (inner ++ last)) path = leftOut inner path := by
  have first : leftOut [k] path = false := by
    refine leftOut_eq_false (List.forall_mem_singleton.2 fun _ prunes => ?_)
    rw [keeps] at prunes
    exact nomatch prunes
  have final : leftOut last path = false := by
    refine leftOut_eq_false fun l hl enters => ?_
    rw [(h.here l hl).1] at enters
    exact nomatch enters
  rw [← List.singleton_append, leftOut_append, leftOut_append, first, final, Bool.false_or,
    Bool.or_false]

theorem enteredNodes_eq (h : Closing k.place e last e') (entering : k.leaving = false) :
    enteredNodes (k :: (inner ++ last)) = (k.place.path, k.node) :: enteredNodes inner := by
  have first : enteredNodes [k] = [(k.place.path, k.node)] := enteredNodes_singleton entering
  have final : enteredNodes last = [] := by
    rw [enteredNodes, List.map_eq_nil_iff, List.filter_eq_nil_iff]
    intro l hl
    rw [(h.here l hl).1]
    exact Bool.false_ne_true
  rw [← List.singleton_append, enteredNodes_append, enteredNodes_append, first, final,
    List.append_nil]
  rfl

/-- The leaving hook is called just if the visit was not stopped below the node. -/
theorem bracketed (h : Closing k.place e last e') (entering : k.leaving = false)
    (keeps : k.answer = .keep) (inside : Ended e inner)
    (under : ∀ j ∈ inner, Under k.place.path j.place.path) :
    k.Bracketed (k :: (inner ++ last)) := by
  cases h with
  | cut s =>
    rw [List.append_nil]
    constructor
    · rintro ⟨j, hj, leaving, same⟩
      obtain rfl | hj := List.mem_cons.1 hj
      · exact absurd leaving (ne_true_of_eq_false entering)
      · exact absurd same.symm (under j hj).2
    · rintro ⟨-, goes⟩
      have running := inside.eq_none fun j hj => goes j (List.mem_cons_of_mem k hj) (under j hj)
      exact absurd running (Option.some_ne_none s)
  | @leave l leaving here =>
    have mem : l ∈ k :: (inner ++ [l]) :=
      List.mem_cons_of_mem k (List.mem_append_right inner (List.mem_singleton_self l))
    refine ⟨fun _ => ⟨keeps, ?_⟩, fun _ => ⟨l, mem, leaving, by rw [here]⟩⟩
    refine List.forall_mem_cons.2 ⟨fun again => absurd rfl again.2, List.forall_mem_append.2
      ⟨fun j hj _ => inside.goes j hj, List.forall_mem_singleton.2 fun again => ?_⟩⟩
    rw [here] at again
    exact absurd rfl again.2

end Closing

namespace Course
variable {k : Encounter α} {e e' : Option Stop} {inner last : List (Encounter α)}

/-- The calls at a node, and between them those at its children. -/
theorem enclose (entering : k.leaving = false) (keeps : k.answer = .keep)
    (h : Course (k.place.below k.node) e inner) (closing : Closing k.place e last e') :
    Course [(k.place, k.node)] e' (k :: (inner ++ last)) := by
  have under : ∀ j ∈ inner, Under k.place.path j.place.path := by
    intro j hj
    obtain ⟨x, hx, further⟩ := h.within j hj
    exact (Context.under_below hx).extend further
  have enters := ne_true_of_eq_false entering
  have nodes : enteredNodes (k :: (inner ++ last)) = (k.place.path, k.node) :: enteredNodes inner :=
    closing.enteredNodes_eq entering
  have walk : (walkOf [(k.place, k.node)]).filter (fun n => !leftOut (k :: (inner ++ last)) n.1) =
      (k.place.path, k.node) :: (walkOf (k.place.below k.node)).filter
        fun n => !leftOut inner n.1 := by
    have here : leftOut inner k.place.path = false :=
      leftOut_eq_false fun j hj _ _ back => (under j hj).not_back back.1
    simp only [closing.leftOut_eq keeps]
    exact filter_walkOf_singleton here
  constructor
  · rw [itineraryOf_cons, List.map_cons, List.map_append, Encounter.waypoint, entering]
    exact (h.order.append closing.sublist).cons_cons _
  · rw [nodes, walk, List.cons_prefix_cons]
    exact ⟨rfl, h.entered⟩
  · intro all
    rw [nodes, walk]
    cases closing with
    | cut s => exact nomatch all
    | leave leaving here => rw [h.complete rfl]
  · have outer := closing.bracketed entering keeps h.ended under
    refine List.forall_mem_cons.2 ⟨fun _ => outer, List.forall_mem_append.2
      ⟨fun j hj first => ?_, fun l hl first => ?_⟩⟩
    · -- the calls at the node itself are not below those at its children
      have quiet : ∀ l : Encounter α, l.place = k.place → ¬ j.place.path <+: l.place.path := by
        intro l here back
        rw [here] at back
        exact (under j hj).not_back back
      have inside : j.Bracketed ([k] ++ (inner ++ last)) :=
        (h.bracketed j hj first).extend (List.forall_mem_singleton.2 (quiet k rfl))
          fun l hl => quiet l (closing.here l hl).2
      exact inside
    · exact absurd (closing.here l hl).1 (ne_true_of_eq_false first)
  · refine List.forall_mem_cons.2 ⟨fun leaving => absurd leaving enters, List.forall_mem_append.2
      ⟨fun j hj leaving => ?_, fun l hl _ => ?_⟩⟩
    · obtain ⟨i, hi, entry⟩ := h.opened j hj leaving
      exact ⟨i, List.mem_cons_of_mem k (List.mem_append_left last hi), entry⟩
    · exact ⟨k, List.mem_cons_self, entering, by rw [(closing.here l hl).2]⟩
  · refine List.pairwise_cons.2 ⟨fun j _ leaving => absurd leaving enters, List.pairwise_append.2
      ⟨h.after, closing.pairwise, fun j hj l hl _ back => ?_⟩⟩
    rw [(closing.here l hl).2] at back
    exact (under j hj).not_back back
  · exact closing.ended (by rw [Encounter.ends, keeps]) h.ended

end Course

end QueryDoc
