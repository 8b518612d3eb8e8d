import QueryDoc.Command.Path
import Mathlib.Data.List.Basic

/-!
# The order of paths

Parts are in a linear order, so paths are in an order in which any two stand one
way or the other. They may stand both ways exactly if they have the same parts,
which paths that are spelled differently may have.
-/
namespace QueryDoc

namespace PathPart

def name : PathPart → String
  | .named name => name
  | _ => ""

/-- The rank decides, and among names the name. -/
theorem compare_eq : compare = compareLex (compareOn rank) (compareOn name) := by
  funext a b
  cases a <;> cases b <;> rfl

instance : Std.TransCmp compare := compare_eq ▸ inferInstance

instance : Std.LawfulEqCmp compare where
  eq_of_compare := by
    intro a b h
    cases a <;> cases b
    case named.named a b =>
      have same : Ord.compare a b = .eq := h
      rw [Std.LawfulEqOrd.eq_of_compare same]
    all_goals first | rfl | simp [compare, rank] at h

end PathPart

namespace Path

instance : Std.TransCmp compare where
  eq_swap := fun {a b} =>
    (Std.OrientedCmp.eq_swap : List.compareLex PathPart.compare (parts a) (parts b) = _)
  isLE_trans := fun {a _ c} h h' =>
    (Std.TransCmp.isLE_trans h h' : (List.compareLex PathPart.compare (parts a) (parts c)).isLE)

theorem compare_eq_iff {a b : String} : compare a b = .eq ↔ parts a = parts b := by
  unfold compare
  exact Std.LawfulEqCmp.compare_eq_iff_eq

theorem isLE_total (a b : String) : (compare a b).isLE ∨ (compare b a).isLE := by
  have swap : compare b a = (compare a b).swap := Std.OrientedCmp.eq_swap
  rw [swap]
  cases compare a b <;> decide

/-- Paths that may stand in either order have the same parts. -/
theorem isLE_antisymm {a b : String} (h : (compare a b).isLE) (h' : (compare b a).isLE) :
    parts a = parts b := compare_eq_iff.1 (Std.OrientedCmp.isLE_antisymm h h')

end Path

end QueryDoc
