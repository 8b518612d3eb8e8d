import QueryDoc.Proofs.Visit.Sharing

/-!
# Copy on write

A visit makes the tree that a naive visit makes, after the same calls, and copies
only what an edit makes it copy: a node without an edit at it or below it is
handed back as the very same node, and a visit that a hook ends gives back the
root itself.
-/
namespace QueryDoc

variable {σ α : Type}

/-- What the calls of a visit say about the walk of its root. -/
theorem calls_faithful (hooks : Hooks σ α) (depth next : Nat) (root : Tree (Numbered α))
    (state : σ) :
    Faithful True (fun x => x = some root) root.plain.nodes
      ((Walk.node hooks depth .root root).run ⟨state, next⟩).1
      (hooks.calls depth next root state) := by
  obtain ⟨calls, faithful, run⟩ := node_traces hooks depth True .root root state [] next
  rw [Hooks.calls, visit_eq, run]
  exact faithful

theorem callsAt_faithful (hooks : Hooks σ α) (depth : Nat) (c : Context (Numbered α))
    (t : Tree (Numbered α)) (p : Progress σ) :
    Faithful True (fun x => x = some t) (t.plain.walk c.path)
      ((hooks.walkAt depth c t).run p).1 (hooks.callsAt depth c t p) := by
  obtain ⟨calls, faithful, run⟩ := node_traces hooks depth True c t p.state [] p.next
  rw [Hooks.callsAt, hooks.walkAt_eq, hooks.logged.walkAt_eq, run]
  exact faithful

/-- A visit is correct and shares what it does not touch. The nodes that exist
are those of a heap, and the numbered tree of any node of the syntax has one.
First, up to numbers a visit has the outcome of a naive visit, after the same
calls. Second, the walk of a node hands back the node itself unless a call in it
was an edit, and so does the visit with its root. Third, a visit in which a hook
asked to stop gives back the root. -/
theorem visit_copies_on_write (hooks : Hooks σ α) (depth : Nat) :
    (∀ n : Node α, ∃ H : Heap α, H.next = n.toTree.numbered.2 ∧ n.toTree.numbered.1 ∈ H ∧
      n.toTree.numbered.1.plain = n.toTree) ∧
    (∀ (τ : Type) (plain : PlainHooks τ α) (rel : Heap α → σ → τ → Prop),
      hooks.DecidesAs plain rel → ∀ (H : Heap α) (root : Tree (Numbered α)) (s : σ) (u : τ),
      root ∈ H → rel H s u →
        (visit hooks depth H.next root s).1.map Tree.plain = (plain.visit depth root.plain u).1 ∧
        hooks.calls depth H.next root s = plain.calls depth root.plain u) ∧
    (∀ c t p, Unedited (hooks.callsAt depth c t p) →
      ∀ r, ((hooks.walkAt depth c t).run p).1 = .ok r → r = some t) ∧
    (∀ next root s, Unedited (hooks.calls depth next root s) →
      ∀ t, (visit hooks depth next root s).1 = .ok t → t = root) ∧
    (∀ next root s, (∃ k ∈ hooks.calls depth next root s, k.answer = .stop) →
      (visit hooks depth next root s).1 = .ok root) := by
  refine ⟨fun n => Tree.numbered_mem n.wellFormed_toTree, fun τ plain rel h H root s u hr r => ?_,
    fun c t p hu => ?_, fun next root s hu t ht => ?_, fun next root s hs => ?_⟩
  · have outcome := (visit_simulates h hr r depth).1
    have logs : (fun (H : Heap α) (s : σ × List (Call α)) (u : τ × List (Call α)) =>
        rel H s.1 u.1 ∧ s.2 = u.2) H (s, []) (u, []) := ⟨r, rfl⟩
    obtain ⟨-, H', -, -, calls⟩ := visit_simulates h.logged hr logs depth
    exact ⟨outcome, calls⟩
  · exact (callsAt_faithful hooks depth c t p).value trivial hu
  · have value := (calls_faithful hooks depth next root s).value trivial hu
    rw [visit_eq] at ht
    exact visitOutcome_eq_root value ht
  · have stopped := (calls_faithful hooks depth next root s).stopped hs
    rw [visit_eq, stopped]
    rfl

/-! ## A visit that moves nodes -/

/-- Remembers the first integer that is entered and puts it in the place of the
others. Ends the visit at a null. -/
def repeatFirst : Hooks (Option (Tree (Numbered Unit))) Unit where
  enter _ t := fun s =>
    if t.kind = .intValue then
      match s with
      | none => (.keep, some t)
      | some first => (.replace first.asDraft, s)
    else (if t.kind = .nullValue then .stop else .keep, s)
  leave _ _ := fun s => (.keep, s)

/-- The same without numbers. -/
def repeatFirstPlain : PlainHooks (Option (Tree Unit)) Unit where
  enter _ t := fun s =>
    if t.kind = .intValue then
      match s with
      | none => (.keep, some t)
      | some first => (.replace first, s)
    else (if t.kind = .nullValue then .stop else .keep, s)
  leave _ _ := fun s => (.keep, s)

/-- The remembered node is one that exists. -/
theorem repeatFirst_decides :
    repeatFirst.DecidesAs repeatFirstPlain fun H s u => s.map Tree.plain = u ∧ ∀ t ∈ s, t ∈ H where
  mono _ _ _ _ le r := ⟨r.1, fun t ht => Heap.mem_of_le le (r.2 t ht)⟩
  enter := by
    rintro H s _ c t ⟨rfl, hs⟩ - ht
    have kind : t.plain.kind = t.kind := Tree.kind_map _ t
    unfold repeatFirst repeatFirstPlain
    simp only [kind]
    split
    · cases s with
      | none => exact ⟨rfl, (fun r hr => by cases hr), rfl, fun u hu => Option.some.inj hu ▸ ht⟩
      | some first =>
        refine ⟨congrArg Edit.replace ?_, fun r hr => ?_, rfl, hs⟩
        · rw [Tree.asDraft, Tree.map_map]; rfl
        · exact Action.replace.inj hr ▸ .existing (hs first rfl)
    · split
      · exact ⟨rfl, (fun r hr => by cases hr), rfl, hs⟩
      · exact ⟨rfl, (fun r hr => by cases hr), rfl, hs⟩
  leave r _ _ := ⟨rfl, (fun _ hr => by cases hr), r⟩

/-- The numbered tree of a list. -/
def numberedList (items : List (Value Unit)) : Tree (Numbered Unit) :=
  (Value.list items ()).toTree.numbered.1

/-- In the list of 1 and 2 the node of the 1 takes the place of the 2. A list of
one integer is left alone, and so is a list with a null behind its integers. -/
theorem repeatFirst_copies_on_write :
    ((visit repeatFirst 3 3 (numberedList [.int "1" (), .int "2" ()]) none).1.map Tree.plain =
        .ok (numberedList [.int "1" (), .int "1" ()]).plain ∧
      repeatFirst.calls 3 3 (numberedList [.int "1" (), .int "2" ()]) none =
        repeatFirstPlain.calls 3 (numberedList [.int "1" (), .int "2" ()]).plain none) ∧
    (∀ r, ((repeatFirst.walkAt 3 .root (numberedList [.int "1" ()])).run ⟨none, 2⟩).1 = .ok r →
      r = some (numberedList [.int "1" ()])) ∧
    (∀ t, (visit repeatFirst 3 2 (numberedList [.int "1" ()]) none).1 = .ok t →
      t = numberedList [.int "1" ()]) ∧
    (visit repeatFirst 3 4 (numberedList [.int "1" (), .int "2" (), .null ()]) none).1 =
      .ok (numberedList [.int "1" (), .int "2" (), .null ()]) := by
  obtain ⟨roots, outcome, same, sameRoot, ended⟩ := visit_copies_on_write repeatFirst 3
  obtain ⟨H, next, mem, -⟩ := roots (.value (.list [.int "1" (), .int "2" ()] ()))
  have moved := outcome _ repeatFirstPlain _ repeatFirst_decides H _ none none mem ⟨rfl, nofun⟩
  rw [next] at moved
  exact ⟨moved, same .root (numberedList [.int "1" ()]) ⟨none, 2⟩ (by decide),
    sameRoot 2 (numberedList [.int "1" ()]) none (by decide),
    ended 4 (numberedList [.int "1" (), .int "2" (), .null ()]) none (by decide)⟩

end QueryDoc
