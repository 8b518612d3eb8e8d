import QueryDoc.Syntax.Document

/-!
# Induction over trees

Values hold lists of values, and selections hold selection sets that hold lists
of selections. A property of all of them is proved once for a node, given that
its members have it.
-/
namespace QueryDoc

variable {α : Type}

/-- A property of values, given that it passes from the members of a list or an
object to the whole. -/
@[elab_as_elim]
theorem Value.induct {motive : Value α → Prop} (var : ∀ v, motive (.variable v))
    (int : ∀ text i, motive (.int text i)) (float : ∀ text i, motive (.float text i))
    (string : ∀ s, motive (.string s)) (boolean : ∀ b i, motive (.boolean b i))
    (null : ∀ i, motive (.null i)) (enum : ∀ name i, motive (.enum name i))
    (list : ∀ items i, (∀ v ∈ items, motive v) → motive (.list items i))
    (object : ∀ fields i, (∀ f ∈ fields, motive (ObjectField.value f)) →
      motive (.object fields i)) : ∀ v, motive v :=
  @Value.rec α motive (fun f => motive f.value) (fun vs => ∀ v ∈ vs, motive v)
    (fun fs => ∀ f ∈ fs, motive (ObjectField.value f)) var int float string boolean null enum
    list object (fun _ _ _ h => h) (fun _ h => absurd h List.not_mem_nil)
    (fun _ _ h hs => List.forall_mem_cons.2 ⟨h, hs⟩) (fun _ h => absurd h List.not_mem_nil)
    (fun _ _ h hs => List.forall_mem_cons.2 ⟨h, hs⟩)

/-- The selection set inside a selection. -/
def Selection.inner? : Selection α → Option (SelectionSet α)
  | .field _ _ _ _ set _ => set
  | .spread _ => none
  | .inlineFragment _ _ set _ => some set

/-- A property of selection sets, given that it passes from the sets inside its
selections to the whole. -/
@[elab_as_elim]
theorem SelectionSet.induct {motive : SelectionSet α → Prop}
    (mk : ∀ items i, (∀ s ∈ items, ∀ set ∈ Selection.inner? s, motive set) →
      motive (.mk items i)) : ∀ set, motive set :=
  @SelectionSet.rec α (fun s => ∀ set ∈ s.inner?, motive set) motive
    (fun o => ∀ set ∈ o, motive set) (fun ss => ∀ s ∈ ss, ∀ set ∈ Selection.inner? s, motive set)
    (fun _ _ _ _ _ _ h => h) (fun _ _ h => nomatch h)
    (fun _ _ _ _ h _ hs => Option.some.inj hs ▸ h) mk (fun _ h => nomatch h)
    (fun _ h _ hs => Option.some.inj hs ▸ h) (fun _ h => absurd h List.not_mem_nil)
    (fun _ _ h hs => List.forall_mem_cons.2 ⟨h, hs⟩)

end QueryDoc
