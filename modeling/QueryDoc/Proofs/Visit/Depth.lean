import QueryDoc.Proofs.Visit.Simulation

/-!
# The depth of a visit

The limit on depth only decides whether a visit finishes. A visit that is not too
deep for a limit is the same visit under every larger limit, with the same
outcome, the same final state and the same numbers given out.
-/
namespace QueryDoc

variable {σ α β γ : Type}

/-- The walk under a larger limit does the same, unless the smaller one was too
small. -/
def Outlasts (m' m : Walk σ β) : Prop :=
  ∀ p, (m.run p).1 = .error (.failed .tooDeep) ∨ m'.run p = m.run p

namespace Outlasts

theorem refl (m : Walk σ β) : Outlasts m m := fun _ => .inr rfl

theorem bind {m' m : Walk σ β} {f' f : β → Walk σ γ} (hm : Outlasts m' m)
    (hf : ∀ x, Outlasts (f' x) (f x)) : Outlasts (m' >>= f') (m >>= f) := by
  intro p
  rw [walk_bind, walk_bind]
  rcases hm p with deep | same
  · left
    generalize m.run p = a at *
    obtain ⟨r, q⟩ := a
    obtain rfl : r = .error (.failed .tooDeep) := deep
    rfl
  · rw [same]
    generalize m.run p = a
    obtain ⟨e | x, q⟩ := a
    · exact .inr rfl
    · exact hf x q

/-- The same beginning, and what follows outlasts. -/
theorem after (m : Walk σ β) {f' f : β → Walk σ γ} (hf : ∀ x, Outlasts (f' x) (f x)) :
    Outlasts (m >>= f') (m >>= f) := (refl m).bind hf

variable {step' step : Walk.Step σ α} (hstep : ∀ c t, Outlasts (step' c t) (step c t))

include hstep

theorem items (owner : Kind) (slot : Slot) (place : Nat → Context (Numbered α)) (i : Nat)
    (ts : List (Tree (Numbered α))) :
    Outlasts (Walk.items step' owner slot place i ts) (Walk.items step owner slot place i ts) := by
  induction ts generalizing i with
  | nil => exact refl _
  | cons t ts ih =>
    apply (hstep (place i) t).bind
    intro x
    apply after
    intro kept
    exact (ih (i + 1)).bind fun rest => refl _

theorem slots (c : Context (Numbered α)) (owner : Tree (Numbered α))
    (fields : List (Slot × List (Tree (Numbered α)))) :
    Outlasts (Walk.slots step' c owner fields) (Walk.slots step c owner fields) := by
  induction fields with
  | nil => exact refl _
  | cons f rest ih =>
    apply (items hstep owner.kind f.1 (c.inSlot owner f.1 f.2) 0 f.2).bind
    intro kept
    exact ih.bind fun kept' => refl _

theorem children (c : Context (Numbered α)) (t : Tree (Numbered α)) :
    Outlasts (Walk.children step' c t) (Walk.children step c t) :=
  (slots hstep c t t.fields).bind fun _ => refl _

end Outlasts

theorem node_outlasts (hooks : Hooks σ α) {depth depth' : Nat} (le : depth ≤ depth')
    (c : Context (Numbered α)) (t : Tree (Numbered α)) :
    Outlasts (Walk.node hooks depth' c t) (Walk.node hooks depth c t) := by
  induction depth generalizing depth' c t with
  | zero => exact fun _ => .inl rfl
  | succ depth ih =>
    obtain ⟨larger, rfl⟩ : ∃ n, depth' = n + 1 := ⟨depth' - 1, by omega⟩
    have below : ∀ u, Outlasts
        (Walk.children (Walk.node hooks larger) c u >>= Walk.leave hooks c)
        (Walk.children (Walk.node hooks depth) c u >>= Walk.leave hooks c) :=
      fun u => (Outlasts.children (fun c t => ih (by omega) c t) c u).bind fun _ => .refl _
    rw [Walk.node, Walk.node]
    apply Outlasts.after
    intro a
    cases a with
    | keep => exact below t
    | skip => exact .refl _
    | remove => exact .refl _
    | replace r => exact .after _ below
    | stop => exact .refl _
    | fail message => exact .refl _

/-- A visit that finishes under a limit is the same under a larger one. -/
theorem visit_of_finished (hooks : Hooks σ α) {depth depth' next : Nat}
    {root : Tree (Numbered α)} {state : σ} (le : depth ≤ depth')
    (finished : (visit hooks depth next root state).1 ≠ .error .tooDeep) :
    visit hooks depth' next root state = visit hooks depth next root state := by
  rw [visit_eq] at finished
  rw [visit_eq, visit_eq]
  rcases node_outlasts hooks le .root root ⟨state, next⟩ with deep | same
  · rw [deep] at finished
    exact absurd rfl finished
  · rw [same]

end QueryDoc
