import QueryDoc.Proofs.Tree.Shape

/-!
# The order of a walk

A walk lists a node and then, slot by slot, what lies below it. What holds of a
node and passes from a node to its children holds of all nodes of a walk.
-/
namespace QueryDoc.Tree

variable {α β : Type}

theorem walkSlots_eq (path : List PathKey) (rules : List Slot) (slots : List (List (Tree α))) :
    walkSlots path rules slots = (rules.zip slots).flatMap fun f => walkList path f.1 0 f.2 := by
  induction slots generalizing rules with
  | nil => simp only [walkSlots, List.zip_nil_right, List.flatMap_nil]
  | cons ts rest ih =>
    cases rules with
    | nil => rw [walkSlots, ih]; rfl
    | cons r rules => rw [walkSlots, ih]; rfl

theorem walk_eq (path : List PathKey) (t : Tree α) :
    t.walk path = (path, t) :: t.fields.flatMap fun f => walkList path f.1 0 f.2 := by
  cases t
  rw [walk, walkSlots_eq]
  rfl

/-- What is listed for the nodes of a slot lies in one of them. -/
theorem mem_walkList {path : List PathKey} {rule : Slot} {i : Nat} {ts : List (Tree α)}
    {x : List PathKey × Tree α} (h : x ∈ walkList path rule i ts) :
    ∃ t ∈ ts, ∃ here, x ∈ t.walk here := by
  induction ts generalizing i with
  | nil => exact absurd h List.not_mem_nil
  | cons t ts ih =>
    rw [walkList] at h
    rcases List.mem_append.1 h with h | h
    · exact ⟨t, List.mem_cons_self, _, h⟩
    · obtain ⟨u, hu, here, hx⟩ := ih h
      exact ⟨u, List.mem_cons_of_mem t hu, here, hx⟩

/-- A node of a walk is the root or lies in a child. -/
theorem mem_walk {path : List PathKey} {t : Tree α} {x : List PathKey × Tree α}
    (h : x ∈ t.walk path) :
    x = (path, t) ∨ ∃ ts ∈ t.slots, ∃ u ∈ ts, ∃ here, x ∈ u.walk here := by
  rw [walk_eq] at h
  rcases List.mem_cons.1 h with h | h
  · exact .inl h
  · obtain ⟨f, hf, hx⟩ := List.mem_flatMap.1 h
    obtain ⟨u, hu, here, hx⟩ := mem_walkList hx
    exact .inr ⟨f.2, (List.of_mem_zip hf).2, u, hu, here, hx⟩

/-- What passes from a node to its children holds of all nodes. -/
theorem forall_walk {P : Tree α → Prop} (down : ∀ t, P t → ∀ ts ∈ t.slots, ∀ u ∈ ts, P u)
    {t : Tree α} (h : P t) (path : List PathKey) : ∀ x ∈ t.walk path, P x.2 := by
  induction t using Tree.induct generalizing path with
  | node head info slots ih =>
    intro x hx
    rcases mem_walk hx with rfl | ⟨ts, hts, u, hu, here, hx⟩
    · exact h
    · exact ih ts hts u hu (down _ h ts hts u hu) here x hx

/-- All nodes of a child are listed, at the place of the child. -/
theorem walk_child {t u : Tree α} {ts : List (Tree α)} (fits : t.Fits) (hts : ts ∈ t.slots)
    (hu : u ∈ ts) (path : List PathKey) : ∃ here, ∀ x ∈ u.walk here, x ∈ t.walk path := by
  rw [← fits.fields_snd] at hts
  obtain ⟨f, hf, rfl⟩ := List.mem_map.1 hts
  have listed (us : List (Tree α)) (i : Nat) (hu : u ∈ us) :
      ∃ here, ∀ x ∈ u.walk here, x ∈ walkList path f.1 i us := by
    induction us generalizing i with
    | nil => exact absurd hu List.not_mem_nil
    | cons v us ih =>
      rcases List.mem_cons.1 hu with rfl | hu
      · exact ⟨_, fun x hx => List.mem_append_left _ hx⟩
      · obtain ⟨here, inner⟩ := ih (i + 1) hu
        exact ⟨here, fun x hx => List.mem_append_right _ (inner x hx)⟩
  obtain ⟨here, inner⟩ := listed f.2 0 hu
  refine ⟨here, fun x hx => ?_⟩
  rw [walk_eq]
  exact List.mem_cons_of_mem _ (List.mem_flatMap.2 ⟨f, hf, inner x hx⟩)

/-- A change that leaves what every node carries leaves the tree. -/
theorem WellFormed.map_eq_self {f : α → α} {t : Tree α} (wf : t.WellFormed) {path : List PathKey}
    (h : ∀ x ∈ t.walk path, f x.2.info = x.2.info) : t.map f = t := by
  induction t using Tree.induct generalizing path with
  | node head info slots ih =>
    have root : f info = info := h (path, .node head info slots) (by rw [walk_eq]; exact .head _)
    rw [map_node, root]
    congr 1
    refine (List.map_congr_left fun ts hts => ?_).trans (List.map_id slots)
    refine (List.map_congr_left fun t ht => ?_).trans (List.map_id ts)
    obtain ⟨here, inner⟩ := walk_child wf.fits hts ht path
    exact ih ts hts t ht (wf.inner ts hts t ht) fun x hx => h x (inner x hx)

theorem walkList_map (f : α → β) (path : List PathKey) (rule : Slot) (i : Nat)
    (ts : List (Tree α))
    (h : ∀ t ∈ ts, ∀ here, (t.map f).walk here = (t.walk here).map fun x => (x.1, x.2.map f)) :
    walkList path rule i (ts.map (map f)) =
      (walkList path rule i ts).map fun x => (x.1, x.2.map f) := by
  induction ts generalizing i with
  | nil => rfl
  | cons t ts ih =>
    rw [List.forall_mem_cons] at h
    rw [List.map_cons, walkList, walkList, List.map_append, ih (i + 1) h.2, h.1]

theorem walk_map (f : α → β) (path : List PathKey) (t : Tree α) :
    (t.map f).walk path = (t.walk path).map fun x => (x.1, x.2.map f) := by
  induction t using Tree.induct generalizing path with
  | node head info slots ih =>
    rw [walk_eq, walk_eq, fields_map, List.map_cons, List.map_flatMap, List.flatMap_map]
    congr 1
    refine List.flatMap_congr fun s hs => ?_
    exact walkList_map f path s.1 0 s.2 fun t ht here =>
      ih s.2 (List.of_mem_zip hs).2 t ht here

theorem nodes_map (f : α → β) (t : Tree α) :
    (t.map f).nodes = t.nodes.map fun x => (x.1, x.2.map f) := walk_map f [] t

end QueryDoc.Tree
