import QueryDoc.Tree.Encoding
import QueryDoc.Proofs.Json.Order
import QueryDoc.Proofs.Tree.Node
import QueryDoc.Proofs.Tree.Walk

/-!
# The encoding of trees loses nothing

What a node says by itself, its slots and its location are written under keys
that all differ, so the order of members carries nothing. Reading the encoding
of a tree that keeps to the table of slots, its members in any order, gives the
tree again, apart from locations.
-/
namespace QueryDoc

open Json

theorem Kind.ofText_text (k : Kind) : Kind.ofText? k.text = some k := by
  cases k <;> decide

theorem OperationKind.ofKeyword_keyword (k : OperationKind) :
    OperationKind.ofKeyword? k.keyword = some k := by
  cases k <;> decide

/-! ## The members of a node -/

section

variable {ν : Type}

/-- What a node says besides its kind. -/
def Head.own : Head → List (String × Json ν)
  | .operationDefinition kind => [("operation", .string kind.keyword)]
  | head => head.leafMembers

/-- The keyword of an operation stands among the slots, everything else in front. -/
theorem Head.members_perm (head : Head) (slots : List (List (String × Json ν))) :
    (head.members slots).Perm
      (("kind", .string head.kind.text) :: (head.own ++ slots.flatten)) := by
  refine .cons _ ?_
  cases head with
  | operationDefinition kind =>
    refine List.perm_middle.trans (.cons _ ?_)
    rw [← List.flatten_append, List.take_append_drop]
    exact .refl _
  | _ => exact .refl _

/-- The keys of what a node says besides its kind. -/
def Kind.ownKeys : Kind → List String
  | .operationDefinition => ["operation"]
  | .stringValue => ["value", "block"]
  | .name | .intValue | .floatValue | .booleanValue | .enumValue => ["value"]
  | _ => []

theorem Head.own_keys (head : Head) :
    (head.own : List (String × Json ν)).map Prod.fst = head.kind.ownKeys := by
  cases head <;> rfl

/-- The keys a node may use all differ. -/
theorem Kind.keys_nodup (k : Kind) :
    (["kind"] ++ k.ownKeys ++ k.slots.map Slot.label ++ ["loc"]).Nodup := by
  cases k <;> decide

/-- What a node says besides its kind is plain text or a flag. -/
theorem Head.own_plain (head : Head) :
    ∀ m ∈ (head.own : List (String × Json ν)), (∃ s, m.2 = .string s) ∨ ∃ b, m.2 = .bool b := by
  cases head <;> simp [own, leafMembers]

/-- What is written under the label of a slot, if anything is. -/
def Slot.value? (s : Slot) (contents : List (Json ν)) : Option (Json ν) :=
  match s.arity with
  | .many => if contents.isEmpty && !s.shownEmpty then none else some (.array contents)
  | _ => contents.head?

theorem Slot.members_eq (s : Slot) (contents : List (Json ν)) :
    s.members contents = written [(s.label, s.value? contents)] := by
  unfold Slot.members Slot.value?
  cases s.arity with
  | many =>
    dsimp only
    split <;> rfl
  | _ => cases contents <;> rfl

end

namespace Tree

@[simp] theorem toJsonList_eq (ts : List (Tree (Option Location))) :
    toJsonList ts = ts.map toJson := by
  induction ts with
  | nil => rfl
  | cons t ts ih => rw [toJsonList, ih, List.map_cons]

/-- What is written for a slot. -/
def slotEntry (f : Slot × List (Tree (Option Location))) : String × Option (Json Nat) :=
  (f.1.label, f.1.value? (f.2.map toJson))

theorem slotMembers_flatten (rules : List Slot) (slots : List (List (Tree (Option Location)))) :
    (slotMembers rules slots).flatten = written ((rules.zip slots).map slotEntry) := by
  induction slots generalizing rules with
  | nil => rw [List.zip_nil_right]; rfl
  | cons ts rest ih =>
    cases rules with
    | nil => rw [slotMembers, List.flatten_cons, List.tail_nil, ih]; rfl
    | cons r rules =>
      rw [slotMembers, List.flatten_cons, List.tail_cons, ih, toJsonList_eq, r.members_eq,
        ← written_append]
      rfl

/-- All keys of a node with what is written under them. -/
def entries (t : Tree (Option Location)) : List (String × Option (Json Nat)) :=
  [("kind", some (.string t.kind.text))] ++ t.head.own.map (fun m => (m.1, some m.2)) ++
    t.fields.map slotEntry ++ [("loc", t.info.map fun l => .object [("span", l.span.toJson)])]

theorem Fits.entries_nodup {t : Tree (Option Location)} (fits : t.Fits) :
    (t.entries.map Prod.fst).Nodup := by
  have labels : t.fields.map (fun f => f.1.label) = t.kind.slots.map Slot.label := by
    rw [← fits.fields_fst, List.map_map]
    rfl
  have keys : t.entries.map Prod.fst =
      ["kind"] ++ t.kind.ownKeys ++ t.kind.slots.map Slot.label ++ ["loc"] := by
    rw [← labels, kind, ← t.head.own_keys (ν := Nat)]
    simp only [entries, slotEntry, List.map_append, List.map_map, Function.comp_def]
    rfl
  rw [keys]
  exact t.kind.keys_nodup

/-- The encoding of a node holds its entries, the keyword of an operation apart
in their order. -/
theorem toJson_perm (t : Tree (Option Location)) :
    ∃ ms, t.toJson = .object ms ∧ ms.Perm (written t.entries) := by
  obtain ⟨head, info, slots⟩ := t
  refine ⟨_, by rw [toJson], ?_⟩
  have own : written (head.own.map fun m : String × Json Nat => (m.1, some m.2)) = head.own := by
    simp only [written, List.filterMap_map, Function.comp_def, Option.map_some]
    exact List.filterMap_some
  have location : Location.members info =
      written [("loc", info.map fun l => .object [("span", l.span.toJson)])] := by
    cases info <;> rfl
  have whole : written (node head info slots).entries = ("kind", .string head.kind.text) ::
      (head.own ++ (slotMembers head.kind.slots slots).flatten) ++ Location.members info := by
    rw [entries, written_append, written_append, written_append, slotMembers_flatten, location]
    simp only [Tree.head, own, List.append_assoc, List.cons_append]
    rfl
  rw [whole]
  exact (head.members_perm _).append_right _

/-! ## Reading -/

variable {t : Tree (Option Location)} {j : Json Nat}

theorem some_of_rel {v : Json Nat} {o : Option (Json Nat)} (h : Option.Rel Same (some v) o) :
    ∃ w, o = some w ∧ Same v w := by
  cases h with
  | some h => exact ⟨_, rfl, h⟩

theorem object_of_same (h : Same t.toJson j) : ∃ os, j = .object os := by
  obtain ⟨ms, hms, -⟩ := t.toJson_perm
  rw [hms] at h
  cases h with
  | object keys values order => exact ⟨_, rfl⟩

/-- What stands under a key is what is written there. -/
theorem Fits.member_of_same (fits : t.Fits) (h : Same t.toJson j) (key : String) :
    Option.Rel Same (t.entries.lookup key).join (j.member? key) := by
  obtain ⟨ms, hms, order⟩ := t.toJson_perm
  obtain ⟨os, rfl⟩ := object_of_same h
  have distinct : (ms.map Prod.fst).Nodup :=
    ((order.map Prod.fst).nodup_iff).2 (fits.entries_nodup.sublist (written_keys _))
  rw [hms] at h
  rw [← lookup_written fits.entries_nodup, ← lookup_perm order distinct]
  exact h.lookup distinct key

theorem Fits.entry_of_same (fits : t.Fits) (h : Same t.toJson j)
    {e : String × Option (Json Nat)} (he : e ∈ t.entries) :
    Option.Rel Same e.2 (j.member? e.1) := by
  have found := fits.member_of_same h e.1
  rwa [lookup_mem fits.entries_nodup he] at found

/-- Plain text and flags are read as they are written. -/
theorem Fits.own_of_same (fits : t.Fits) (h : Same t.toJson j) :
    ∀ m ∈ t.head.own, j.member? m.1 = some m.2 := by
  intro m hm
  have written : (m.1, some m.2) ∈ t.entries := by
    simp only [entries, List.append_assoc]
    exact List.mem_append_right _ (List.mem_append_left _ (List.mem_map_of_mem hm))
  obtain ⟨v, hv, same⟩ := some_of_rel (fits.entry_of_same h written)
  rw [hv, same.plain (t.head.own_plain m hm)]

theorem head_of_own {head : Head} (kind : j.member? "kind" = some (.string head.kind.text))
    (own : ∀ m ∈ head.own, j.member? m.1 = some m.2) : j.head? = some head := by
  rw [head?, kind]
  simp only [text?, Option.bind_eq_bind, Option.bind_some, Kind.ofText_text]
  cases head with
  | operationDefinition o =>
    rw [own ("operation", .string o.keyword) List.mem_cons_self]
    simp only [Head.kind, Option.bind_some, o.ofKeyword_keyword]
    rfl
  | stringValue value block =>
    rw [own ("value", .string value) List.mem_cons_self,
      own ("block", .bool block) (List.mem_cons_of_mem _ List.mem_cons_self)]
    rfl
  | name value => rw [own ("value", .string value) List.mem_cons_self]; rfl
  | intValue text => rw [own ("value", .string text) List.mem_cons_self]; rfl
  | floatValue text => rw [own ("value", .string text) List.mem_cons_self]; rfl
  | booleanValue value => rw [own ("value", .bool value) List.mem_cons_self]; rfl
  | enumValue text => rw [own ("value", .string text) List.mem_cons_self]; rfl
  | _ => rfl

theorem Fits.head_of_same (fits : t.Fits) (h : Same t.toJson j) : j.head? = some t.head := by
  refine head_of_own ?_ (fits.own_of_same h)
  obtain ⟨v, hv, same⟩ := some_of_rel (fits.entry_of_same h (e := ("kind", _)) List.mem_cons_self)
  rw [hv, same.plain (.inl ⟨_, rfl⟩)]
  rfl

/-- At most one node is read as it is written, by itself. -/
theorem slotItems_of_head {s : Slot} {ts : List (Tree (Option Location))} (few : ts.length ≤ 1)
    (h : Option.Rel Same (ts.map toJson).head? (j.member? s.label)) :
    List.Forall₂ Same (ts.map toJson) (slotItems s j) := by
  match ts with
  | [] =>
    cases hm : j.member? s.label with
    | none =>
      rw [slotItems, hm]
      exact .nil
    | some v =>
      rw [hm] at h
      exact nomatch h
  | [t] =>
    obtain ⟨v, hv, same⟩ := some_of_rel h
    obtain ⟨os, rfl⟩ := object_of_same same
    rw [slotItems, hv]
    exact .cons same .nil

/-- What a slot holds is read as it is written. -/
theorem slotItems_of_rel {s : Slot} {ts : List (Tree (Option Location))} (holds : s.Holds ts)
    (h : Option.Rel Same (s.value? (ts.map toJson)) (j.member? s.label)) :
    List.Forall₂ Same (ts.map toJson) (slotItems s j) := by
  unfold Slot.value? at h
  unfold Slot.Holds at holds
  cases ha : s.arity with
  | required =>
    rw [ha] at h holds
    exact slotItems_of_head (Nat.le_of_eq holds.1) h
  | optional =>
    rw [ha] at h holds
    exact slotItems_of_head holds.1 h
  | many =>
    rw [ha] at h
    dsimp only at h
    split at h
    case isTrue hidden =>
      obtain rfl : ts = [] := by
        rw [Bool.and_eq_true, List.isEmpty_iff] at hidden
        exact List.map_eq_nil_iff.1 hidden.1
      exact slotItems_of_head (Nat.zero_le 1) h
    case isFalse =>
      obtain ⟨v, hv, same⟩ := some_of_rel h
      rw [slotItems, hv]
      cases same with
      | array items => exact items

/-- The nodes of a slot are found under its label. -/
theorem Fits.slotItems_of_same (fits : t.Fits) (h : Same t.toJson j) :
    ∀ f ∈ t.fields, List.Forall₂ Same (f.2.map toJson) (slotItems f.1 j) := by
  intro f hf
  have written : slotEntry f ∈ t.entries :=
    List.mem_append_left _ (List.mem_append_right _ (List.mem_map_of_mem hf))
  have found := fits.entry_of_same h written
  exact slotItems_of_rel (fits.fields_holds f hf) found

end Tree

/-! ## The tree of an encoding -/

theorem Json.depth_lookup {key : String} {ms : List (String × Json Nat)} {v : Json Nat}
    (h : ms.lookup key = some v) : v.depth ≤ depthMembers ms := by
  induction ms with
  | nil => exact absurd h (by simp)
  | cons m ms ih =>
    rw [depthMembers]
    rw [List.lookup_cons] at h
    cases hk : key == m.1 with
    | true =>
      rw [hk] at h
      cases h
      exact Nat.le_max_left _ _
    | false =>
      rw [hk] at h
      exact Nat.le_trans (ih h) (Nat.le_max_right _ _)

theorem Json.depth_item {items : List (Json Nat)} {v : Json Nat} (h : v ∈ items) :
    v.depth ≤ depthItems items := by
  induction items with
  | nil => exact absurd h List.not_mem_nil
  | cons w ws ih =>
    rw [depthItems]
    rcases List.mem_cons.1 h with rfl | h
    · exact Nat.le_max_left _ _
    · exact Nat.le_trans (ih h) (Nat.le_max_right _ _)

/-- The nodes in the slots of an object nest less deep than the object. -/
theorem Json.depth_slotItems {s : Slot} {ms : List (String × Json Nat)} {v : Json Nat}
    (h : v ∈ slotItems s (.object ms)) : v.depth ≤ depthMembers ms := by
  unfold slotItems member? at h
  split at h
  case h_1 items found =>
    have inner := Json.depth_item h
    have outer := Json.depth_lookup found
    rw [depth] at outer
    omega
  case h_2 => exact absurd h List.not_mem_nil
  case h_3 w _ _ found =>
    rw [List.mem_singleton.1 h]
    exact Json.depth_lookup found
  case h_4 => exact absurd h List.not_mem_nil

/-- An object is read one level further down for the nodes in its slots. -/
theorem Json.toTree_object (ms : List (String × Json Nat)) (depth : Nat) :
    (object ms).toTree? (depth + 1) = (object ms).head?.bind fun head =>
      (head.kind.slots.mapM fun s => (slotItems s (object ms)).mapM (toTree? depth)).bind
        fun slots => some (.node head none slots) := rfl

namespace Tree

theorem mapM_of_forall₂ {α β : Type} {f : α → Option β} {as : List α} {bs : List β}
    (h : List.Forall₂ (fun a b => f a = some b) as bs) : as.mapM f = some bs := by
  induction h with
  | nil => rfl
  | cons h _ ih =>
    rw [List.mapM_cons, h, ih]
    rfl

/-- A tree is read from its encoding, the members in any order, as it is apart
from locations. -/
theorem WellFormed.toTree_of_same {t : Tree (Option Location)} (wf : t.WellFormed) :
    ∀ {j : Json Nat} {depth : Nat}, Same t.toJson j → j.depth ≤ depth →
      j.toTree? depth = some (t.map fun _ => none) := by
  induction t using Tree.induct with
  | node head info slots ih =>
    intro j depth h hd
    obtain ⟨os, rfl⟩ := object_of_same h
    rw [Json.depth] at hd
    obtain ⟨depth, rfl⟩ : ∃ d, depth = d + 1 := Nat.exists_eq_add_one.2 (by omega)
    have slot : List.Forall₂ (fun s us => (slotItems s (.object os)).mapM (toTree? depth) = some us)
        head.kind.slots (slots.map (List.map (map fun _ => none))) := by
      rw [List.forall₂_map_right_iff]
      refine List.forall₂_iff_zip.2 ⟨wf.fits.length_eq, fun {s ts} hf => ?_⟩
      have same := wf.fits.slotItems_of_same h (s, ts) hf
      rw [List.forall₂_map_left_iff] at same
      refine mapM_of_forall₂ (List.forall₂_map_right_iff.2 ?_)
      refine List.forall₂_iff_zip.2 ⟨same.length_eq.symm, fun {v t} hv => ?_⟩
      have hts : ts ∈ slots := (List.of_mem_zip hf).2
      have ht : t ∈ ts := (List.of_mem_zip hv).2
      refine ih ts hts t ht (wf.inner ts hts t ht) ?_ ?_
      · exact (List.forall₂_iff_zip.1 same.flip).2 hv
      · have shallow := depth_slotItems (List.of_mem_zip hv).1
        omega
    have read := mapM_of_forall₂ slot
    rw [Json.toTree_object, wf.fits.head_of_same h, map_node]
    exact congrArg (fun o => o.bind fun ss => some (Tree.node head none ss)) read

theorem WellFormed.ofJson_of_same {t : Tree (Option Location)} (wf : t.WellFormed) {j : Json Nat}
    (h : Same t.toJson j) : ofJson? j = some (t.map fun _ => none) :=
  wf.toTree_of_same h (Nat.le_refl _)

end Tree

/-- Nodes are the same apart from locations if their encodings are, up to the
order of members. -/
theorem Node.map_eq_of_same {a b : Node (Option Location)}
    (h : Same a.toTree.toJson b.toTree.toJson) :
    a.toTree.map (fun _ => (none : Option Location)) = b.toTree.map fun _ => none := by
  have first := a.wellFormed_toTree.ofJson_of_same h
  rw [b.wellFormed_toTree.ofJson_of_same (.refl _)] at first
  exact (Option.some.inj first).symm

/-- The encoding of a node without locations determines the node, whatever the
order of members. -/
theorem Node.encoding_lossless (a b : Node (Option Location))
    (ha : ∀ x ∈ a.toTree.nodes, x.2.info = none) (hb : ∀ x ∈ b.toTree.nodes, x.2.info = none) :
    Same a.toTree.toJson b.toTree.toJson ↔ a = b := by
  constructor
  · intro h
    have apart := Node.map_eq_of_same h
    rw [a.wellFormed_toTree.map_eq_self fun x hx => (ha x hx).symm,
      b.wellFormed_toTree.map_eq_self fun x hx => (hb x hx).symm] at apart
    exact Node.toTree_injective apart
  · rintro rfl
    exact .refl _

/-- The lists `[one]` and `["one"]`. -/
def enumList : Node (Option Location) := .value (.list [.enum "one" none] none)

def stringList : Node (Option Location) := .value (.list [.string ⟨"one", false, none⟩] none)

/-- An enum value and a string of the same text are told apart by their kinds. -/
theorem enumList_stringList_apart :
    (∀ x ∈ enumList.toTree.nodes, x.2.info = none) ∧
      (∀ x ∈ stringList.toTree.nodes, x.2.info = none) ∧
      ¬ Same enumList.toTree.toJson stringList.toTree.toJson := by
  have first : ∀ x ∈ enumList.toTree.nodes, x.2.info = none := by decide
  have second : ∀ x ∈ stringList.toTree.nodes, x.2.info = none := by decide
  exact ⟨first, second, fun h => nomatch (Node.encoding_lossless _ _ first second).1 h⟩

end QueryDoc
