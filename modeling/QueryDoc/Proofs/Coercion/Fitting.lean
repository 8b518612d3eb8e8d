import QueryDoc.Coercion
import QueryDoc.Proofs.Syntax.Induction
import Mathlib.Data.Option.Basic

/-!
# Values that fit a type

Converting a literal for a type gives what converting it without one does, if the literal
fits the type, and nothing otherwise. Which literals fit is said here by rules and not by
computing anything. Inside a list the two conversions part where an item has no value, for
without a type it becomes null; but an item without a value fits no type either, so a list
that fits has no such item.
-/
namespace QueryDoc.Coercion

variable {α β : Type}

/-- The literals that the built-in scalars admit. -/
inductive OfScalar : String → Value α → Prop
  | int {text : String} {info : α} : OfScalar "Int" (.int text info)
  | float {text : String} {info : α} : OfScalar "Float" (.float text info)
  | string {s : StringValue α} : OfScalar "String" (.string s)
  | boolean {b : Bool} {info : α} : OfScalar "Boolean" (.boolean b info)

/-- The named types that admit literals of one kind only. -/
def builtInScalars : List String := ["Int", "Float", "String", "Boolean"]

/-- Neither a variable nor the literal null. -/
def isDefinite : Value α → Bool
  | .variable _ => false
  | .null _ => false
  | _ => true

theorem OfScalar.isDefinite {name : String} {v : Value α} (h : OfScalar name v) :
    isDefinite v = true := by
  cases h <;> rfl

/-- A value fits a type, given the values of variables. A variable is not looked into, but
for null. -/
inductive Fits (given : Variables) : TypeRef β → Value α → Prop
  | var {t : TypeRef β} {v : Variable α} {j : Json Number} :
      lookup given v.name.value = some j → ¬ (j.isNull = true ∧ isNonNull t = true) →
      Fits given t (.variable v)
  | null {t : NullableType β} {info : α} : Fits given (.nullable t) (.null info)
  | nonNull {t : NullableType β} {info : β} {v : Value α} : isDefinite v = true →
      Fits given (.nullable t) v → Fits given (.nonNull t info) v
  | list {item : TypeRef β} {info : β} {items : List (Value α)} {info' : α} :
      (∀ v ∈ items, Fits given item v) →
      Fits given (.nullable (.list item info)) (.list items info')
  | scalar {n : NamedType β} {v : Value α} : OfScalar n.name.value v →
      (untyped given v).isSome = true → Fits given (.nullable (.named n)) v
  | other {n : NamedType β} {v : Value α} : n.name.value ∉ builtInScalars → isDefinite v = true →
      (untyped given v).isSome = true → Fits given (.nullable (.named n)) v

section Rules
variable {given : Variables} {v : Value α} {n : NamedType β} {t : NullableType β} {info : β}

/-- Whatever fits some type has a value without one. -/
theorem Fits.exists_untyped {t : TypeRef β} (h : Fits given t v) :
    ∃ j, untyped given v = some j := by
  induction h with
  | var hlookup _ => exact ⟨_, hlookup⟩
  | null => exact ⟨_, rfl⟩
  | nonNull _ _ ih => exact ih
  | list => exact ⟨_, rfl⟩
  | scalar _ hform => exact Option.isSome_iff_exists.1 hform
  | other _ _ hform => exact Option.isSome_iff_exists.1 hform

theorem fits_nonNull_iff (h : isDefinite v = true) :
    Fits given (.nonNull t info) v ↔ Fits given (.nullable t) v := by
  constructor
  · intro hfits
    cases hfits with
    | var => cases h
    | nonNull _ hfits => exact hfits
  · exact .nonNull h

theorem fits_list_iff {item : TypeRef β} {items : List (Value α)} {info' : α} :
    Fits given (.nullable (.list item info)) (.list items info') ↔
      ∀ v ∈ items, Fits given item v := by
  constructor
  · intro hfits
    cases hfits with
    | list hitems => exact hitems
  · exact .list

/-- Only lists fit a list type. -/
theorem Fits.exists_items {item : TypeRef β} (h : Fits given (.nullable (.list item info)) v)
    (hdefinite : isDefinite v = true) : ∃ items info', v = .list items info' := by
  cases h with
  | var => cases hdefinite
  | null => cases hdefinite
  | list => exact ⟨_, _, rfl⟩

/-- The scalars are told by their names one after the other. -/
theorem fitsNamed_iff (name : String) (v : Value α) :
    fitsNamed name v = true ↔ OfScalar name v ∨ name ∉ builtInScalars := by
  constructor
  · intro h
    by_cases hname : name ∈ builtInScalars
    · left
      simp only [builtInScalars, List.mem_cons, List.not_mem_nil, or_false] at hname
      rcases hname with rfl | rfl | rfl | rfl
      · cases v with
        | int => exact .int
        | _ => cases h
      · cases v with
        | float => exact .float
        | _ => cases h
      · cases v with
        | string => exact .string
        | _ => cases h
      · cases v with
        | boolean => exact .boolean
        | _ => cases h
    · exact .inr hname
  · rintro (hscalar | hname)
    · cases hscalar <;> rfl
    · simp only [builtInScalars, List.mem_cons, List.not_mem_nil, or_false, not_or] at hname
      simp [fitsNamed, hname]

theorem fits_named_iff (h : isDefinite v = true) :
    Fits given (.nullable (.named n)) v ↔
      fitsNamed n.name.value v = true ∧ (untyped given v).isSome = true := by
  rw [fitsNamed_iff]
  constructor
  · intro hfits
    cases hfits with
    | var => cases h
    | null => cases h
    | scalar hscalar hform => exact ⟨.inl hscalar, hform⟩
    | other hname _ hform => exact ⟨.inr hname, hform⟩
  · rintro ⟨hscalar | hname, hform⟩
    · exact .scalar hscalar hform
    · exact .other hname h hform

end Rules

/-! ## The conversion for a type -/

section Typed
variable {given : Variables} {v : Value α} {j : Json Number}

theorem typed_nonNull {t : NullableType β} {info : β} (h : isDefinite v = true) :
    typed given (.nonNull t info) v = typed given (.nullable t) v := by
  cases v with
  | «variable» => cases h
  | null => cases h
  | _ => simp only [typed, nullablePart]

theorem typed_named (n : NamedType β) (h : isDefinite v = true) :
    typed given (.nullable (.named n)) v = ofNamed given n.name.value v := by
  cases v with
  | «variable» => cases h
  | null => cases h
  | _ => simp only [typed, nullablePart]

theorem typed_list_eq_none {item : TypeRef β} {info : β} (h : isDefinite v = true)
    (hlist : ∀ items info', v ≠ .list items info') :
    typed given (.nullable (.list item info)) v = none := by
  cases v with
  | «variable» => cases h
  | null => cases h
  | list items info' => exact absurd rfl (hlist items info')
  | _ => simp only [typed, nullablePart]

/-- The two conversions of the values agree where the values fit. -/
def Agree (given : Variables) (t : TypeRef β) (v : Value α) : Prop :=
  ∀ j, typed given t v = some j ↔ Fits given t v ∧ untyped given v = some j

/-- A list is converted if all its items are; no item then becomes null for want of a value. -/
theorem typedItems_eq_some_iff {item : TypeRef β} {items : List (Value α)}
    {js : List (Json Number)} (h : ∀ v ∈ items, Agree given item v) :
    typedItems given item items = some js ↔
      (∀ v ∈ items, Fits given item v) ∧ untypedItems given items = js := by
  induction items generalizing js with
  | nil => simp [typedItems, untypedItems]
  | cons v vs ih =>
    obtain ⟨hv, hvs⟩ := List.forall_mem_cons.1 h
    rw [List.forall_mem_cons, untypedItems]
    have hcons : typedItems given item (v :: vs) = some js ↔
        ∃ j, typed given item v = some j ∧ ∃ rest, typedItems given item vs = some rest ∧
          j :: rest = js := by
      simp [typedItems, Option.bind_eq_some_iff]
    rw [hcons]
    constructor
    · rintro ⟨j, hj, rest, hrest, rfl⟩
      obtain ⟨hfits, hform⟩ := (hv j).1 hj
      obtain ⟨hall, hforms⟩ := (ih hvs).1 hrest
      exact ⟨⟨hfits, hall⟩, by rw [hform, hforms, Option.getD_some]⟩
    · rintro ⟨⟨hfits, hall⟩, hforms⟩
      obtain ⟨j, hform⟩ := hfits.exists_untyped
      rw [hform, Option.getD_some] at hforms
      exact ⟨j, (hv j).2 ⟨hfits, hform⟩, _, (ih hvs).2 ⟨hall, rfl⟩, hforms⟩

theorem agree_named (n : NamedType β) (h : isDefinite v = true) :
    Agree given (.nullable (.named n)) v := by
  intro j
  rw [typed_named n h, fits_named_iff h, ofNamed]
  cases fitsNamed n.name.value v with
  | false => simp
  | true =>
    simp only [if_true, true_and]
    exact ⟨fun hform => ⟨by rw [hform]; rfl, hform⟩, And.right⟩

/-- For a value that is neither a variable nor null a type that excludes null says no more. -/
theorem agree_of_nullable (h : isDefinite v = true)
    (hagree : ∀ t : NullableType β, Agree given (.nullable t) v) (t : TypeRef β) :
    Agree given t v := by
  cases t with
  | nullable t => exact hagree t
  | nonNull t info =>
    intro j
    rw [typed_nonNull h, fits_nonNull_iff h]
    exact hagree t j

/-- A value that is no list either agrees, since it fits no list type. -/
theorem agree_of_not_list (h : isDefinite v = true) (hlist : ∀ items info, v ≠ .list items info)
    (t : TypeRef β) : Agree given t v := by
  refine agree_of_nullable h (fun t => ?_) t
  cases t with
  | named n => exact agree_named n h
  | list item info =>
    intro j
    rw [typed_list_eq_none h hlist]
    constructor
    · intro hj
      cases hj
    · rintro ⟨hfits, -⟩
      obtain ⟨items, info', heq⟩ := hfits.exists_items h
      exact absurd heq (hlist items info')

theorem agree_variable (t : TypeRef β) (v : Variable α) : Agree given t (.variable v) := by
  intro j
  rw [typed, untyped]
  cases hlookup : lookup given v.name.value with
  | none => simp
  | some k =>
    have hfits : Fits given t (.variable v) ↔ ¬ (k.isNull = true ∧ isNonNull t = true) := by
      constructor
      · intro hfits
        cases hfits with
        | var hk hnull =>
          obtain rfl := Option.some.inj (hlookup.symm.trans hk)
          exact hnull
        | nonNull hdefinite => cases hdefinite
        | scalar hscalar => cases hscalar.isDefinite
        | other _ hdefinite => cases hdefinite
      · exact .var hlookup
    rw [hfits]
    by_cases hnull : k.isNull = true ∧ isNonNull t = true
    · simp [hnull]
    · simp [hnull]

theorem agree_null (t : TypeRef β) (info : α) : Agree given t (.null info) := by
  intro j
  cases t with
  | nullable t => exact ⟨fun h => ⟨.null, h⟩, And.right⟩
  | nonNull t info' =>
    constructor
    · intro h
      cases h
    · rintro ⟨hfits, -⟩
      cases hfits with
      | nonNull hdefinite => cases hdefinite

end Typed

/-- **Conversion for a type is conversion of what fits.** A value has a value for a type if
and only if it fits the type and has one without, and then it is the same. -/
theorem typed_eq_some_iff (given : Variables) (t : TypeRef β) (v : Value α) (j : Json Number) :
    typed given t v = some j ↔ Fits given t v ∧ untyped given v = some j := by
  suffices hagree : Agree given t v from hagree j
  induction v using Value.induct generalizing t with
  | var v => exact agree_variable t v
  | null info => exact agree_null t info
  | list items info ih =>
    refine agree_of_nullable rfl (fun t => ?_) t
    cases t with
    | named n => exact agree_named n rfl
    | list item info' =>
      intro j
      rw [fits_list_iff, typed, untyped, nullablePart, Option.map_eq_some_iff, Option.some.injEq]
      constructor
      · rintro ⟨js, hjs, rfl⟩
        obtain ⟨hfits, hforms⟩ := (typedItems_eq_some_iff fun v hv => ih v hv item).1 hjs
        exact ⟨hfits, congrArg _ hforms⟩
      · rintro ⟨hfits, rfl⟩
        exact ⟨_, (typedItems_eq_some_iff fun v hv => ih v hv item).2 ⟨hfits, rfl⟩, rfl⟩
  | _ => exact agree_of_not_list rfl (by simp) t

/-- Without its variable a list still has a value, but not for a type. -/
example : untyped none (.list [.variable ⟨⟨"a", ()⟩, ()⟩] ()) = some (.array [.null]) ∧
    typed none (.nullable (.list (.nullable (.named ⟨⟨"ID", ()⟩, ()⟩)) ()))
      (.list [.variable ⟨⟨"a", ()⟩, ()⟩] ()) = none := ⟨rfl, rfl⟩

end QueryDoc.Coercion
