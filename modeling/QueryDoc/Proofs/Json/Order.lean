import QueryDoc.Json
import Mathlib.Data.List.Forall2

/-!
# JSON values up to order

An object is a list of members here, but what it says does not depend on their
order. Two values are the same if they differ in the order of members only, at
any depth. As long as the keys of an object differ, the same object holds the
same under each key.
-/
namespace QueryDoc.Json

variable {ν : Type}

/-- A property of values, given that it passes from what an array or an object
holds to the whole. -/
@[elab_as_elim]
theorem induct {motive : Json ν → Prop} (null : motive .null) (bool : ∀ b, motive (.bool b))
    (number : ∀ n, motive (.number n)) (string : ∀ s, motive (.string s))
    (array : ∀ items, (∀ v ∈ items, motive v) → motive (.array items))
    (object : ∀ members, (∀ v ∈ members.map Prod.snd, motive v) → motive (.object members)) :
    ∀ j, motive j :=
  @Json.rec ν motive (fun items => ∀ v ∈ items, motive v)
    (fun members => ∀ v ∈ members.map Prod.snd, motive v) (fun m => motive m.2)
    null bool number string array object (fun _ h => absurd h List.not_mem_nil)
    (fun _ _ h hs => List.forall_mem_cons.2 ⟨h, hs⟩) (fun _ h => absurd h List.not_mem_nil)
    (fun _ _ h hs => List.forall_mem_cons.2 ⟨h, hs⟩) (fun _ _ h => h)

/-- The same value, the members of its objects in any order. -/
inductive Same : Json ν → Json ν → Prop where
  | null : Same .null .null
  | bool (b : Bool) : Same (.bool b) (.bool b)
  | number (n : ν) : Same (.number n) (.number n)
  | string (s : String) : Same (.string s) (.string s)
  | array {vs ws : List (Json ν)} (items : List.Forall₂ Same vs ws) : Same (.array vs) (.array ws)
  /-- Member by member the same as `ns`, which is then put in another order. -/
  | object {ms ns os : List (String × Json ν)} (keys : ms.map Prod.fst = ns.map Prod.fst)
      (values : List.Forall₂ Same (ms.map Prod.snd) (ns.map Prod.snd)) (order : ns.Perm os) :
      Same (.object ms) (.object os)

namespace Same

theorem refl (j : Json ν) : Same j j := by
  induction j using Json.induct with
  | null => exact .null
  | bool b => exact .bool b
  | number n => exact .number n
  | string s => exact .string s
  | array items ih => exact .array (List.forall₂_same.2 ih)
  | object members ih => exact .object rfl (List.forall₂_same.2 ih) (.refl members)

/-- Texts and flags have nothing to put in another order. -/
theorem plain {v w : Json ν} (h : Same v w)
    (plain : (∃ s, v = .string s) ∨ ∃ b, v = .bool b) : w = v := by
  obtain ⟨s, rfl⟩ | ⟨b, rfl⟩ := plain <;> cases h <;> rfl

end Same

/-! ## Lookup -/

section

variable {β : Type} {ms os : List (String × β)}

/-- Where keys differ, what is found under a key does not depend on the order. -/
theorem lookup_perm (order : ms.Perm os) (distinct : (ms.map Prod.fst).Nodup) (key : String) :
    ms.lookup key = os.lookup key := by
  induction order with
  | nil => rfl
  | cons m _ ih =>
    rw [List.map_cons, List.nodup_cons] at distinct
    rw [List.lookup_cons, List.lookup_cons, ih distinct.2]
  | swap m n ms =>
    simp only [List.map_cons, List.nodup_cons, List.mem_cons, not_or] at distinct
    rw [List.lookup_cons, List.lookup_cons, List.lookup_cons, List.lookup_cons]
    cases hm : key == m.1 with
    | false => rfl
    | true =>
      have hn : (key == n.1) = false :=
        beq_eq_false_iff_ne.2 fun h => distinct.1.1 (h.symm.trans (eq_of_beq hm))
      rw [hn]
  | trans first _ ih ih' =>
    rw [ih distinct, ih' ((first.map Prod.fst).nodup_iff.1 distinct)]

/-- Where keys differ, a member is found under its key. -/
theorem lookup_mem (distinct : (ms.map Prod.fst).Nodup) {m : String × β} (h : m ∈ ms) :
    ms.lookup m.1 = some m.2 := by
  obtain ⟨before, after, rfl⟩ := List.append_of_mem h
  refine List.lookup_eq_some_iff.2 ⟨before, after, rfl, fun n hn => ?_⟩
  rw [List.map_append, List.nodup_append] at distinct
  exact bne_iff_ne.2 (distinct.2.2 n.1 (List.mem_map_of_mem hn) m.1 List.mem_cons_self).symm

end

/-- The same object holds the same under each key. -/
theorem Same.lookup {ms os : List (String × Json ν)} (h : Same (.object ms) (.object os))
    (distinct : (ms.map Prod.fst).Nodup) (key : String) :
    Option.Rel Same (ms.lookup key) (os.lookup key) := by
  cases h with
  | @object _ ns _ keys values order =>
    rw [← lookup_perm order (keys ▸ distinct)]
    clear order distinct
    induction ms generalizing ns with
    | nil =>
      rw [List.map_eq_nil_iff.1 keys.symm]
      exact .none
    | cons m ms ih =>
      cases ns with
      | nil => exact absurd keys (List.cons_ne_nil _ _)
      | cons n ns =>
        simp only [List.map_cons, List.cons.injEq, List.forall₂_cons] at keys values
        rw [List.lookup_cons, List.lookup_cons, keys.1]
        cases key == n.1 with
        | true => exact .some values.1
        | false => exact ih keys.2 values.2

/-! ## Members that may be left out -/

section

variable {β : Type}

/-- The members of an object, from all keys it may have. -/
def written (entries : List (String × Option β)) : List (String × β) :=
  entries.filterMap fun e => e.2.map fun v => (e.1, v)

theorem written_append (es fs : List (String × Option β)) :
    written (es ++ fs) = written es ++ written fs := List.filterMap_append

theorem written_keys (entries : List (String × Option β)) :
    ((written entries).map Prod.fst).Sublist (entries.map Prod.fst) := by
  induction entries with
  | nil => exact .slnil
  | cons e es ih =>
    obtain ⟨key, _ | v⟩ := e
    · exact ih.cons key
    · exact ih.cons_cons key

theorem lookup_written {entries : List (String × Option β)}
    (distinct : (entries.map Prod.fst).Nodup) (key : String) :
    (written entries).lookup key = (entries.lookup key).join := by
  induction entries with
  | nil => rfl
  | cons e es ih =>
    rw [List.map_cons, List.nodup_cons] at distinct
    have rest := ih distinct.2
    obtain ⟨k, o⟩ := e
    cases hk : key == k with
    | false =>
      rw [List.lookup_cons, hk]
      cases o with
      | none => exact rest
      | some v =>
        have step : written ((k, some v) :: es) = (k, v) :: written es := rfl
        rw [step, List.lookup_cons, hk]
        exact rest
    | true =>
      obtain rfl := eq_of_beq hk
      rw [List.lookup_cons_self]
      cases o with
      | some v => exact List.lookup_cons_self
      | none =>
        have missing : es.lookup key = none := by
          rw [List.lookup_eq_none_iff]
          intro e he
          exact bne_iff_ne.2 (ne_of_mem_of_not_mem (List.mem_map_of_mem he) distinct.1).symm
        rw [missing] at rest
        exact rest

end

end QueryDoc.Json
