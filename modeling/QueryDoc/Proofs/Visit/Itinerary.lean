import QueryDoc.Proofs.Visit.Reduction

/-!
# The way through all of a tree

A visit that leaves nothing out comes to every node twice, on its way in and on its
way out. In between it goes through the children, slot by slot and in the order of
the lists. So the paths of a node's children go on from its own, and no point of the
way is passed twice.
-/
namespace QueryDoc

variable {α : Type}

namespace Tree

mutual

/-- The way through a tree, by the paths of its nodes. The flag says whether the node
is left. -/
def itinerary (path : List PathKey) : Tree α → List (Bool × List PathKey)
  | .node head _ slots =>
    (false, path) :: (itinerarySlots path head.kind.slots slots ++ [(true, path)])

def itinerarySlots (path : List PathKey) (rules : List Slot) :
    List (List (Tree α)) → List (Bool × List PathKey)
  | [] => []
  | ts :: rest =>
    (match rules with
      | [] => []
      | r :: _ => itineraryList path r 0 ts) ++ itinerarySlots path rules.tail rest

def itineraryList (path : List PathKey) (rule : Slot) (i : Nat) :
    List (Tree α) → List (Bool × List PathKey)
  | [] => []
  | t :: ts =>
    let here := match rule.arity with
      | .many => path ++ [.field rule.key, .index i]
      | _ => path ++ [.field rule.key]
    itinerary here t ++ itineraryList path rule (i + 1) ts

end

theorem itinerarySlots_eq (path : List PathKey) (rules : List Slot)
    (slots : List (List (Tree α))) :
    itinerarySlots path rules slots =
      (rules.zip slots).flatMap fun f => itineraryList path f.1 0 f.2 := by
  induction slots generalizing rules with
  | nil => simp only [itinerarySlots, List.zip_nil_right, List.flatMap_nil]
  | cons ts rest ih =>
    cases rules with
    | nil => rw [itinerarySlots, ih]; rfl
    | cons r rules => rw [itinerarySlots, ih]; rfl

theorem itineraryList_eq (c : Context α) (t : Tree α) (slot : Slot) (all ts : List (Tree α))
    (i : Nat) :
    itineraryList c.path slot i ts =
      (ts.zipIdx i).flatMap fun x => x.1.itinerary (c.inSlot t slot all x.2).path := by
  induction ts generalizing i with
  | nil => rfl
  | cons u ts ih =>
    rw [List.zipIdx_cons, List.flatMap_cons, ← ih]
    exact congrArg (fun p => u.itinerary p ++ itineraryList c.path slot (i + 1) ts)
      (c.path_inSlot t slot all i).symm

theorem walkList_eq (c : Context α) (t : Tree α) (slot : Slot) (all ts : List (Tree α)) (i : Nat) :
    walkList c.path slot i ts =
      (ts.zipIdx i).flatMap fun x => x.1.walk (c.inSlot t slot all x.2).path := by
  induction ts generalizing i with
  | nil => rfl
  | cons u ts ih =>
    rw [List.zipIdx_cons, List.flatMap_cons, ← ih]
    exact congrArg (fun p => u.walk p ++ walkList c.path slot (i + 1) ts)
      (c.path_inSlot t slot all i).symm

end Tree

/-- The way through the nodes at some places, one after the other. -/
def itineraryOf (xs : List (Context α × Tree α)) : List (Bool × List PathKey) :=
  xs.flatMap fun x => x.2.itinerary x.1.path

/-- The nodes at some places and below them, in the order of a walk. -/
def walkOf (xs : List (Context α × Tree α)) : List (List PathKey × Tree α) :=
  xs.flatMap fun x => x.2.walk x.1.path

theorem itineraryOf_append (xs ys : List (Context α × Tree α)) :
    itineraryOf (xs ++ ys) = itineraryOf xs ++ itineraryOf ys := List.flatMap_append

theorem walkOf_append (xs ys : List (Context α × Tree α)) :
    walkOf (xs ++ ys) = walkOf xs ++ walkOf ys := List.flatMap_append

theorem itineraryOf_root (root : Tree α) :
    itineraryOf [(Context.root, root)] = root.itinerary [] := List.flatMap_singleton ..

theorem walkOf_root (root : Tree α) : walkOf [(Context.root, root)] = root.nodes :=
  List.flatMap_singleton ..

theorem itineraryOf_cons (c : Context α) (t : Tree α) (xs : List (Context α × Tree α)) :
    itineraryOf ((c, t) :: xs) =
      (false, c.path) :: (itineraryOf (c.below t) ++ (true, c.path) :: itineraryOf xs) := by
  have here : t.itinerary c.path =
      (false, c.path) :: (itineraryOf (c.below t) ++ [(true, c.path)]) := by
    cases t with
    | node head info slots =>
      rw [Tree.itinerary, Tree.itinerarySlots_eq, itineraryOf, Context.below, List.flatMap_assoc]
      congr 2
      refine List.flatMap_congr fun f hf => ?_
      rw [Context.belowIn, List.flatMap_map]
      exact Tree.itineraryList_eq c _ f.1 f.2 f.2 0
  rw [itineraryOf, List.flatMap_cons, here, List.cons_append, List.append_assoc]
  rfl

theorem walkOf_cons (c : Context α) (t : Tree α) (xs : List (Context α × Tree α)) :
    walkOf ((c, t) :: xs) = (c.path, t) :: (walkOf (c.below t) ++ walkOf xs) := by
  have here : t.walk c.path = (c.path, t) :: walkOf (c.below t) := by
    rw [Tree.walk_eq, walkOf, Context.below, List.flatMap_assoc]
    congr 1
    refine List.flatMap_congr fun f hf => ?_
    rw [Context.belowIn, List.flatMap_map]
    exact Tree.walkList_eq c t f.1 f.2 f.2 0
  rw [walkOf, List.flatMap_cons, here]
  rfl

/-- What holds of no places, and of a place and others if it holds of the places of its
children and of the others. -/
theorem placesInduct {motive : List (Context α × Tree α) → Prop} (nil : motive [])
    (cons : ∀ c t xs, motive (c.below t) → motive xs → motive ((c, t) :: xs))
    (xs : List (Context α × Tree α)) : motive xs := by
  have whole : ∀ xs : List (Context α × Tree α),
      (∀ x ∈ xs, ∀ ys, motive ys → motive (x :: ys)) → motive xs := by
    intro xs each
    induction xs with
    | nil => exact nil
    | cons x xs ih =>
      rw [List.forall_mem_cons] at each
      exact each.1 xs (ih each.2)
  have one : ∀ (t : Tree α) c ys, motive ys → motive ((c, t) :: ys) := by
    intro t
    induction t using Tree.induct with
    | node head info slots ih =>
      intro c ys others
      refine cons c _ ys (whole _ fun x hx => ?_) others
      obtain ⟨f, hf, i, item, -⟩ := Context.mem_below hx
      exact ih f.2 (List.of_mem_zip hf).2 x.2 (List.mem_of_getElem? item) x.1
  exact whole xs fun x _ => one x.2 x.1

/-! ## Paths that go on -/

/-- The path `q` goes on from `p`. -/
def Under (p q : List PathKey) : Prop := p <+: q ∧ p ≠ q

instance (p q : List PathKey) : Decidable (Under p q) :=
  inferInstanceAs (Decidable (p <+: q ∧ p ≠ q))

theorem Under.extend {p q r : List PathKey} (h : Under p q) (further : q <+: r) :
    Under p r := by
  refine ⟨h.1.trans further, fun same => h.2 ?_⟩
  subst same
  exact h.1.eq_of_length_le further.length_le

/-- A path does not go back to one that it goes on from. -/
theorem Under.not_back {p q : List PathKey} (h : Under p q) : ¬ q <+: p :=
  fun back => h.2 (h.1.eq_of_length_le back.length_le)

theorem Context.under_below {c : Context α} {t : Tree α} {x : Context α × Tree α}
    (hx : x ∈ c.below t) : Under c.path x.1.path := by
  obtain ⟨f, -, i, -, place⟩ := mem_below hx
  refine ⟨path_prefix_below hx, fun same => ?_⟩
  rw [place, path_inSlot] at same
  split at same <;> simp at same

theorem Context.height_below {c : Context α} {t : Tree α} {x : Context α × Tree α}
    (hx : x ∈ c.below t) : x.2.height < t.height := by
  obtain ⟨f, hf, i, item, -⟩ := mem_below hx
  cases t with
  | node head info slots =>
    have lower := Tree.heightSlots_le.1 (Nat.le_refl (Tree.heightSlots slots))
    have child := lower f.2 (List.of_mem_zip hf).2 x.2 (List.mem_of_getElem? item)
    exact Nat.lt_succ_of_le child

theorem exists_of_mem_itineraryOf {xs : List (Context α × Tree α)} {s : Bool × List PathKey}
    (hs : s ∈ itineraryOf xs) : ∃ x ∈ xs, x.1.path <+: s.2 := by
  induction xs using placesInduct with
  | nil => exact absurd hs List.not_mem_nil
  | cons c t xs inner others =>
    have here : ∃ x ∈ (c, t) :: xs, x.1.path <+: c.path :=
      ⟨(c, t), List.mem_cons_self, List.prefix_rfl⟩
    rw [itineraryOf_cons, List.mem_cons, List.mem_append, List.mem_cons] at hs
    obtain rfl | hs | rfl | hs := hs
    · exact here
    · obtain ⟨x, hx, further⟩ := inner hs
      exact ⟨(c, t), List.mem_cons_self, (Context.path_prefix_below hx).trans further⟩
    · exact here
    · obtain ⟨x, hx, further⟩ := others hs
      exact ⟨x, List.mem_cons_of_mem _ hx, further⟩

theorem exists_of_mem_walkOf {xs : List (Context α × Tree α)} {n : List PathKey × Tree α}
    (hn : n ∈ walkOf xs) : ∃ x ∈ xs, x.1.path <+: n.1 := by
  induction xs using placesInduct with
  | nil => exact absurd hn List.not_mem_nil
  | cons c t xs inner others =>
    rw [walkOf_cons, List.mem_cons, List.mem_append] at hn
    obtain rfl | hn | hn := hn
    · exact ⟨(c, t), List.mem_cons_self, List.prefix_rfl⟩
    · obtain ⟨x, hx, further⟩ := inner hn
      exact ⟨(c, t), List.mem_cons_self, (Context.path_prefix_below hx).trans further⟩
    · obtain ⟨x, hx, further⟩ := others hn
      exact ⟨x, List.mem_cons_of_mem _ hx, further⟩

/-! ## The points of the way -/

/-- There are two points at each node. -/
theorem length_itineraryOf (xs : List (Context α × Tree α)) :
    (itineraryOf xs).length = 2 * (walkOf xs).length := by
  induction xs using placesInduct with
  | nil => rfl
  | cons c t xs inner others =>
    simp only [itineraryOf_cons, walkOf_cons, List.length_cons, List.length_append, inner, others]
    omega

/-- No point is passed twice on the way through nodes at places that are apart. -/
theorem nodup_itineraryOf {xs : List (Context α × Tree α)} (formed : ∀ x ∈ xs, x.2.WellFormed)
    (apart : xs.Pairwise fun x y => Apart x.1.path y.1.path) : (itineraryOf xs).Nodup := by
  induction xs using placesInduct with
  | nil => exact .nil
  | cons c t xs inner others =>
    rw [List.forall_mem_cons] at formed
    rw [List.pairwise_cons] at apart
    have below := inner formed.1.child (c.below_apart formed.1.fits)
    have rest := others formed.2 apart.2
    have away : ∀ s ∈ itineraryOf xs, ¬ c.path <+: s.2 := by
      intro s hs here
      obtain ⟨x, hx, further⟩ := exists_of_mem_itineraryOf hs
      exact apart.1 x hx s.2 here further
    have under : ∀ s ∈ itineraryOf (c.below t), Under c.path s.2 := by
      intro s hs
      obtain ⟨x, hx, further⟩ := exists_of_mem_itineraryOf hs
      exact (Context.under_below hx).extend further
    have entry : (false, c.path) ∉ itineraryOf (c.below t) ++ (true, c.path) :: itineraryOf xs := by
      rw [List.mem_append, List.mem_cons]
      rintro (again | same | again)
      · exact (under _ again).2 rfl
      · exact nomatch congrArg Prod.fst same
      · exact away _ again List.prefix_rfl
    have exit : ((true, c.path) :: itineraryOf xs).Nodup :=
      List.nodup_cons.2 ⟨fun again => away _ again List.prefix_rfl, rest⟩
    rw [itineraryOf_cons, List.nodup_cons, List.nodup_append]
    refine ⟨entry, below, exit, fun s hs s' hs' same => ?_⟩
    subst same
    obtain rfl | hs' := List.mem_cons.1 hs'
    · exact (under _ hs).2 rfl
    · exact away s hs' (under s hs).1

end QueryDoc
