import QueryDoc.Proofs.Location.Covering
import QueryDoc.Proofs.Location.Stretch
import QueryDoc.Proofs.Tree.Map
import QueryDoc.Proofs.Tree.Node
import QueryDoc.Proofs.Tree.Walk
import QueryDoc.Proofs.Visit.CopyOnWrite

/-!
# Located trees are trees of intervals

The tokens of a text lie one after the other. A node stands for some of them in a
row and its children for parts of these, so the spans nest, and the children of a
node lie one after the other in the order of its slots. Hence a walk, which goes
from a node to its children in that order, never goes back in the text.
-/
namespace QueryDoc

/-- The position lies between two characters of the text, or at an end of it. -/
def Position.IsBoundary (body : String) (p : Position) : Prop :=
  ∃ before, before <+: body.toList ∧ p = .after before

/-- The span starts where a token starts and stops where a token stops. -/
def Span.MeetsTokens (body : String) (s : Span) : Prop :=
  (∃ t ∈ tokenize body, t.kind ≠ .endOfInput ∧ t.span.start = s.start) ∧
    ∃ t ∈ tokenize body, t.kind ≠ .endOfInput ∧ t.span.stop = s.stop

/-- The node has a stretch of text, and its children have parts of it, one after
the other. -/
structure Tree.Nests (t : Tree Span) : Prop where
  proper : t.info.start.offset < t.info.stop.offset
  inside : ∀ u ∈ t.slots.flatten, t.info.start.offset ≤ u.info.start.offset ∧
    u.info.stop.offset ≤ t.info.stop.offset
  apart : t.slots.flatten.Pairwise fun u v => u.info.stop.offset ≤ v.info.start.offset

/-- The node is an interval of the text that its children divide. -/
structure Tree.IsInterval (body : String) (t : Tree Span) : Prop extends t.Nests where
  start_boundary : t.info.start.IsBoundary body
  stop_boundary : t.info.stop.IsBoundary body
  ends : if t.kind = .document then
      t.info.start.offset = 0 ∧ t.info.stop.offset = byteLength body.toList
    else t.info.MeetsTokens body

theorem Position.offset_after (cs : List Char) : (after cs).offset = byteLength cs := by
  rw [after, Reading.offset_through]
  exact Nat.zero_add _

theorem Position.IsBoundary.offset_le {body : String} {p : Position} (h : p.IsBoundary body) :
    p.offset ≤ byteLength body.toList := by
  obtain ⟨before, ⟨rest, hrest⟩, rfl⟩ := h
  rw [offset_after, ← hrest, byteLength_append]
  exact Nat.le_add_right _ _

/-! ## Tokens in order -/

/-- No token is empty, and they lie one after the other. -/
structure Ordered (ts : List Token) : Prop where
  proper : ∀ t ∈ ts, t.span.start.offset < t.span.stop.offset
  apart : ts.Pairwise fun t u => t.span.stop.offset ≤ u.span.start.offset

namespace Ordered
variable {ts us : List Token} {s r : Span}

theorem sublist (h : Ordered ts) (hs : us.Sublist ts) : Ordered us :=
  ⟨fun t ht => h.proper t (hs.subset ht), h.apart.sublist hs⟩

/-- The span of some tokens reaches over all of them. -/
theorem mem_hull (h : Ordered ts) (hs : hull ts = some s) {t : Token} (ht : t ∈ ts) :
    s.start.offset ≤ t.span.start.offset ∧ t.span.stop.offset ≤ s.stop.offset := by
  obtain ⟨hstart, hstop⟩ := hull_eq_some.1 hs
  obtain ⟨a, ha, start⟩ := Option.map_eq_some_iff.1 hstart
  obtain ⟨z, hz, stop⟩ := Option.map_eq_some_iff.1 hstop
  constructor
  · obtain ⟨rest, rfl⟩ := List.head?_eq_some_iff.1 ha
    rw [← start]
    rcases List.mem_cons.1 ht with rfl | ht
    · exact Nat.le_refl _
    · have := h.proper a List.mem_cons_self
      have := (List.pairwise_cons.1 h.apart).1 t ht
      omega
  · obtain ⟨rest, rfl⟩ := List.getLast?_eq_some_iff.1 hz
    rw [← stop]
    rcases List.mem_append.1 ht with ht | ht
    · have := h.proper z (List.mem_append_right _ List.mem_cons_self)
      have := (List.pairwise_append.1 h.apart).2.2 t ht z List.mem_cons_self
      omega
    · rw [List.mem_singleton.1 ht]

/-- The ends of a span are ends of tokens. -/
theorem exists_of_hull (hs : hull ts = some s) :
    (∃ a ∈ ts, a.span.start = s.start) ∧ ∃ z ∈ ts, z.span.stop = s.stop := by
  obtain ⟨hstart, hstop⟩ := hull_eq_some.1 hs
  obtain ⟨a, ha, hstart⟩ := Option.map_eq_some_iff.1 hstart
  obtain ⟨z, hz, hstop⟩ := Option.map_eq_some_iff.1 hstop
  exact ⟨⟨a, List.mem_of_mem_head? ha, hstart⟩, z, List.mem_of_getLast? hz, hstop⟩

theorem start_lt_stop (h : Ordered ts) (hs : hull ts = some s) :
    s.start.offset < s.stop.offset := by
  obtain ⟨⟨a, ha, -⟩, -⟩ := exists_of_hull hs
  have := h.proper a ha
  have := h.mem_hull hs ha
  omega

theorem hull_mono (h : Ordered ts) (hs : hull ts = some s) (hsub : us.Sublist ts)
    (hr : hull us = some r) :
    s.start.offset ≤ r.start.offset ∧ r.stop.offset ≤ s.stop.offset := by
  obtain ⟨⟨a, ha, hstart⟩, z, hz, hstop⟩ := exists_of_hull hr
  rw [← hstart, ← hstop]
  exact ⟨(h.mem_hull hs (hsub.subset ha)).1, (h.mem_hull hs (hsub.subset hz)).2⟩

/-- What stands for parts of the tokens lies one after the other. -/
theorem scattered (h : Ordered ts) {xs : List (Tree Span)} (hx : Scattered Covers ts xs) :
    xs.Pairwise fun u v => u.info.stop.offset ≤ v.info.start.offset := by
  induction hx with
  | gap ts => exact .nil
  | item hx => exact List.pairwise_singleton _ _
  | @append ts us xs ys hx hy ihx ihy =>
    have left := h.sublist (List.sublist_append_left ts us)
    have right := h.sublist (List.sublist_append_right ts us)
    refine List.pairwise_append.2 ⟨ihx left, ihy right, fun u hu v hv => ?_⟩
    obtain ⟨vs, hvs, hcu⟩ := hx.exists_infix u hu
    obtain ⟨ws, hws, hcv⟩ := hy.exists_infix v hv
    obtain ⟨-, z, hz, hstop⟩ := exists_of_hull hcu.spreads.hull
    obtain ⟨⟨a, ha, hstart⟩, -⟩ := exists_of_hull hcv.spreads.hull
    -- the last token under `u` lies in front of the first under `v`
    rw [← hstart, ← hstop]
    exact (List.pairwise_append.1 h.apart).2.2 z (hvs.subset hz) a (hws.subset ha)

/-- The spans of a node over the tokens and of its children nest. -/
theorem nests (h : Ordered ts) {t : Tree Span} (ht : Covers ts t) : t.Nests where
  proper := h.start_lt_stop ht.spreads.hull
  inside u hu := by
    obtain ⟨us, hus, covers⟩ := ht.spreads.children.exists_infix u hu
    exact h.hull_mono ht.spreads.hull hus.sublist covers.spreads.hull
  apart := h.scattered ht.spreads.children

end Ordered

theorem tokenize_ordered {body : String} {ts rest : List Token} (h : tokenize body = ts ++ rest)
    (proper : ∀ t ∈ ts, t.kind.isProper = true) : Ordered ts := by
  have tiles := Lexical.tokenize_tiles body
  rw [h] at tiles
  refine ⟨fun t ht => ?_, (List.pairwise_append.1 tiles.ordered).1⟩
  have unit := TokenKind.ne_endOfInput_of_isProper (proper t ht)
  exact (tiles.unit_spec t (List.mem_append_left _ ht) unit).1

/-! ## The nodes of a parsed tree -/

section Parsed
variable {body : String} {ts rest : List Token}

/-- A node of a tree that stands over the tokens `ts` with `rest` after them. -/
def Part (ts rest : List Token) (t : Tree Span) : Prop :=
  ∃ us n, us <:+: ts ∧ Stands us rest n ∧ n.toTree = t

theorem Part.down {t : Tree Span} (h : Part ts rest t) :
    ∀ ss ∈ t.slots, ∀ u ∈ ss, Part ts rest u := by
  intro ss hss u hu
  have child : ∀ us, us <:+: ts → Scattered Covers us t.slots.flatten → Part ts rest u := by
    intro us hus children
    obtain ⟨vs, hvs, covers⟩ := children.exists_infix u (List.mem_flatten.2 ⟨ss, hss, hu⟩)
    obtain ⟨n, rfl, -⟩ := covers.derived
    exact ⟨vs, n, hvs.trans hus, .node covers, rfl⟩
  obtain ⟨us, n, hus, stands, rfl⟩ := h
  cases stands with
  | node covers => exact child us hus covers.spreads.children
  | document _ _ _ children =>
    refine child us hus ?_
    simpa [Node.toTree, Document.toTree, Tree.slots] using children

theorem Part.fits {t : Tree Span} (h : Part ts rest t) : t.Fits := by
  obtain ⟨us, n, -, -, rfl⟩ := h
  exact n.wellFormed_toTree.fits

/-- No node but a document has the tree of a document. -/
theorem not_covers_document {us : List Token} {t : Tree Span} (h : Covers us t) :
    t.kind ≠ .document := by
  intro hkind
  obtain ⟨n, rfl, derives⟩ := h.derived
  have back := n.toNode_toTree
  rw [Tree.toNode?, hkind] at back
  obtain ⟨d, -, rfl⟩ := Option.map_eq_some_iff.1 back
  exact derives

section
variable (htokens : tokenize body = ts ++ rest) (proper : ∀ t ∈ ts, t.kind.isProper = true)
include htokens proper

/-- Some of the tokens in a row have a text. -/
theorem exists_text_of_infix {us : List Token} (hus : us <:+: ts) (hne : us ≠ []) :
    ∃ pre mid post, body.toList = pre ++ (mid ++ post) ∧
      hull us = some ⟨.after pre, .after (pre ++ mid)⟩ ∧
      Lexical.LexesTo mid (us.map Token.kind) := by
  obtain ⟨before, after, rfl⟩ := hus
  rw [List.append_assoc, List.append_assoc] at htokens
  rw [List.forall_mem_append] at proper
  exact Lexical.exists_text htokens proper.1 hne

theorem covers_isInterval {us : List Token} {t : Tree Span} (hus : us <:+: ts)
    (h : Covers us t) : t.IsInterval body := by
  have ordered := (tokenize_ordered htokens proper).sublist hus.sublist
  have hull := h.spreads.hull
  have hne := ne_nil_of_startOf h.startOf_eq
  obtain ⟨pre, mid, post, hbody, htext, -⟩ := exists_text_of_infix htokens proper hus hne
  obtain ⟨⟨a, ha, start⟩, z, hz, stop⟩ := Ordered.exists_of_hull hull
  have unit : ∀ t ∈ us, t ∈ tokenize body ∧ t.kind ≠ .endOfInput := by
    intro t ht
    have mem := hus.subset ht
    exact ⟨htokens ▸ List.mem_append_left rest mem,
      TokenKind.ne_endOfInput_of_isProper (proper t mem)⟩
  rw [hull] at htext
  have info : t.info = ⟨.after pre, .after (pre ++ mid)⟩ := Option.some.inj htext
  refine ⟨ordered.nests h, ?_, ?_, ?_⟩
  · rw [info]
    exact ⟨pre, hbody ▸ List.prefix_append _ _, rfl⟩
  · rw [info]
    rw [← List.append_assoc] at hbody
    exact ⟨pre ++ mid, hbody ▸ List.prefix_append _ _, rfl⟩
  · rw [if_neg (not_covers_document h)]
    exact ⟨⟨a, (unit a ha).1, (unit a ha).2, start⟩, z, (unit z hz).1, (unit z hz).2, stop⟩

theorem Part.isInterval {t : Tree Span} (h : Part ts rest t) : t.IsInterval body := by
  obtain ⟨us, n, hus, stands, rfl⟩ := h
  cases stands with
  | node covers => exact covers_isInterval htokens proper hus covers
  | @document ds e he hend hne children =>
    have ordered := (tokenize_ordered htokens proper).sublist hus.sublist
    obtain ⟨after, rfl⟩ := List.head?_eq_some_iff.1 he
    have stop := congrArg Span.stop (Lexical.stop_endOfInput htokens proper hend)
    have child : ∀ u ∈ ds.map Definition.toTree, u.IsInterval body := by
      intro u hu
      obtain ⟨vs, hvs, covers⟩ := children.exists_infix u hu
      exact covers_isInterval htokens proper (hvs.trans hus) covers
    have length : e.span.stop.offset = byteLength body.toList := by
      rw [stop]
      exact Position.offset_after body.toList
    have slots : (Document.toTree ⟨ds, ⟨.zero, e.span.stop⟩⟩).slots.flatten =
        ds.map Definition.toTree := by
      simp [Document.toTree, Tree.slots]
    refine ⟨⟨?_, fun u hu => ?_, ?_⟩, ⟨[], List.nil_prefix, rfl⟩, ?_, ?_⟩
    · obtain ⟨d, hd⟩ := List.exists_mem_of_ne_nil _ hne
      have d_proper := (child _ (List.mem_map_of_mem hd)).proper
      have d_stop := (child _ (List.mem_map_of_mem hd)).stop_boundary.offset_le
      change 0 < e.span.stop.offset
      omega
    · have u_stop := (child u (slots ▸ hu)).stop_boundary.offset_le
      exact ⟨Nat.zero_le _, length ▸ u_stop⟩
    · exact slots ▸ ordered.scattered children
    · exact ⟨body.toList, List.prefix_rfl, stop⟩
    · exact ⟨rfl, length⟩

end

end Parsed

/-! ## The order of a walk -/

section Walk

/-- The first node starts no later than the second. -/
def StartsBefore (x y : List PathKey × Tree Span) : Prop :=
  x.2.info.start.offset ≤ y.2.info.start.offset

/-- All of the walk lies in the span. -/
def InSpan (s : Span) (xs : List (List PathKey × Tree Span)) : Prop :=
  ∀ x ∈ xs, s.start.offset ≤ x.2.info.start.offset ∧ x.2.info.stop.offset ≤ s.stop.offset

variable {P : Tree Span → Prop} (nests : ∀ t, P t → t.Nests)
  (down : ∀ t, P t → ∀ ts ∈ t.slots, ∀ u ∈ ts, P u)
include nests down

theorem walk_inSpan {t : Tree Span} (h : P t) (path : List PathKey) :
    InSpan t.info (t.walk path) := by
  induction t using Tree.induct generalizing path with
  | node head info slots ih =>
    intro x hx
    rcases Tree.mem_walk hx with rfl | ⟨ts, hts, u, hu, here, hx⟩
    · exact ⟨Nat.le_refl _, Nat.le_refl _⟩
    · have inner := ih ts hts u hu (down _ h ts hts u hu) here x hx
      have outer := (nests _ h).inside u (List.mem_flatten.2 ⟨ts, hts, hu⟩)
      omega

/-- What is listed for a node ends before what is listed for a later one starts. -/
theorem walk_before {t u : Tree Span} (ht : P t) (hu : P u)
    (apart : t.info.stop.offset ≤ u.info.start.offset) {path here : List PathKey} :
    ∀ x ∈ t.walk path, ∀ y ∈ u.walk here, StartsBefore x y := by
  intro x hx y hy
  have x_proper := (nests _ (Tree.forall_walk down ht path x hx)).proper
  have x_inside := walk_inSpan nests down ht path x hx
  have y_inside := walk_inSpan nests down hu here y hy
  unfold StartsBefore
  omega

theorem walkList_sorted {ts : List (Tree Span)} (hP : ∀ t ∈ ts, P t)
    (apart : ts.Pairwise fun u v => u.info.stop.offset ≤ v.info.start.offset)
    (ih : ∀ t ∈ ts, ∀ path, (t.walk path).Pairwise StartsBefore) (path : List PathKey)
    (rule : Slot) (i : Nat) : (Tree.walkList path rule i ts).Pairwise StartsBefore := by
  induction ts generalizing i with
  | nil => exact .nil
  | cons t ts ihs =>
    rw [List.forall_mem_cons] at hP ih
    obtain ⟨first, apart⟩ := List.pairwise_cons.1 apart
    rw [Tree.walkList]
    refine List.pairwise_append.2 ⟨ih.1 _, ihs hP.2 apart ih.2 (i + 1), fun x hx y hy => ?_⟩
    obtain ⟨u, hu, here, hy⟩ := Tree.mem_walkList hy
    exact walk_before nests down hP.1 (hP.2 u hu) (first u hu) x hx y hy

/-- A walk enters nodes in the order in which they start. -/
theorem walk_sorted (fits : ∀ t, P t → t.Fits) {t : Tree Span} (h : P t) (path : List PathKey) :
    (t.walk path).Pairwise StartsBefore := by
  induction t using Tree.induct generalizing path with
  | node head info slots ih =>
    have apart := List.pairwise_flatten.1 (nests _ h).apart
    have fields := (fits _ h).fields_snd
    have inside := walk_inSpan nests down h path
    rw [Tree.walk_eq] at inside ⊢
    refine List.pairwise_cons.2 ⟨fun x hx => (inside x (List.mem_cons_of_mem _ hx)).1, ?_⟩
    refine List.pairwise_flatMap.2 ⟨fun f hf => ?_, ?_⟩
    · have hslot : f.2 ∈ slots := (List.of_mem_zip hf).2
      have inner := down _ h f.2 hslot
      exact walkList_sorted nests down inner (apart.1 f.2 hslot)
        (fun t ht => ih f.2 hslot t ht (inner t ht)) path f.1 0
    · have later := apart.2
      rw [← fields, List.pairwise_map] at later
      refine later.imp_of_mem fun {f g} hf hg between x hx y hy => ?_
      obtain ⟨u, hu, _, hx⟩ := Tree.mem_walkList hx
      obtain ⟨v, hv, _, hy⟩ := Tree.mem_walkList hy
      exact walk_before nests down (down _ h f.2 (List.of_mem_zip hf).2 u hu)
        (down _ h g.2 (List.of_mem_zip hg).2 v hv) (between u hu v hv) x hx y hy

end Walk

/-! ## What a parser returns -/

/-- The first node starts no later in the text than the second, as far as they have
locations. -/
def LocatedBefore (x y : List PathKey × Tree (Option Location)) : Prop :=
  ∀ l m, x.2.info = some l → y.2.info = some m → l.span.start.offset ≤ m.span.start.offset

/-- The trees that are returned carry the spans of the nodes that are parsed. -/
theorem exists_spans {entry : Entry} {source : Source} {n : Node (Option Location)}
    (h : Node.parse entry .standard source = .ok n) :
    ∃ m ts rest, n = Node.map (fun s => some ⟨s, source⟩) m ∧
      tokenize source.body = ts ++ rest ∧ (∀ t ∈ ts, t.kind.isProper = true) ∧
      Stands ts rest m := by
  rw [Node.parse, Node.ofTokens_eq] at h
  cases hrun : (Parser.whole entry).run source (tokenize source.body) with
  | error e =>
    rw [hrun] at h
    cases h
  | ok m =>
    rw [hrun] at h
    cases h
    obtain ⟨units, p, htokens, -, -⟩ := (Lexical.tokenize_tiles source.body).ending
    have hend : (tokenize source.body).getLast?.map Token.kind = some .endOfInput := by
      rw [htokens, List.getLast?_concat]
      rfl
    obtain ⟨ts, rest, htokens, proper, stands⟩ := Parser.whole_stands hrun hend
    exact ⟨m, ts, rest, rfl, htokens, proper, stands⟩

/-- Every located tree is a properly nested and ordered tree of intervals over its
source. All nodes have locations in the source; each is an interval of the text
that its children divide, in the order of its slots. So the nodes of a walk, and
those that a visit without edits enters, come in the order in which they start. -/
theorem parse_isIntervalTree {entry : Entry} {source : Source} {n : Node (Option Location)}
    (h : Node.parse entry .standard source = .ok n) :
    ∃ t : Tree Span, n.toTree = t.map (fun s => some ⟨s, source⟩) ∧
      (∀ x ∈ t.nodes, x.2.IsInterval source.body) ∧ t.nodes.Pairwise StartsBefore ∧
      ∀ (σ : Type) (hooks : Hooks σ (Option Location)) (depth next : Nat)
        (root : Tree (Numbered (Option Location))) (state : σ), root.plain = n.toTree →
        Unedited (hooks.calls depth next root state) →
        (entered (hooks.calls depth next root state)).Pairwise LocatedBefore := by
  obtain ⟨m, ts, rest, rfl, htokens, proper, stands⟩ := exists_spans h
  have part : Part ts rest m.toTree := ⟨ts, m, List.infix_rfl, stands, rfl⟩
  have interval {t} (ht : Part ts rest t) := ht.isInterval htokens proper
  have tree := m.toTree_map fun s => some (Location.mk s source)
  have sorted : m.toTree.nodes.Pairwise StartsBefore :=
    walk_sorted (fun _ ht => (interval ht).toNests) (fun _ ht => ht.down) (fun _ ht => ht.fits)
      part []
  refine ⟨m.toTree, tree, fun x hx => ?_, sorted, fun σ hooks depth next root state hroot hu => ?_⟩
  · exact interval (Tree.forall_walk (fun _ ht => ht.down) part [] x hx)
  · -- without edits, what is entered is some of the walk, for hooks may skip nodes
    have order := (calls_faithful hooks depth next root state).entered trivial hu
    rw [hroot, tree, Tree.nodes_map] at order
    refine (List.pairwise_map.2 (sorted.imp fun {x y} before l k hl hk => ?_)).sublist order
    rw [Tree.info_map] at hl hk
    obtain rfl := Option.some.inj hl
    obtain rfl := Option.some.inj hk
    exact before

/-! ## A query of one field -/

/-- A selection set with the field `a`. -/
def fieldA : Source := .ofText "\x7ba\x7d"

/-- A place on the one line of it. -/
def inFieldA (start stop : Nat) : Option Location :=
  some ⟨⟨⟨0, start, start, start⟩, ⟨0, stop, stop, stop⟩⟩, fieldA⟩

def fieldANode : Node (Option Location) :=
  .document ⟨[.operation ⟨none, .query, none, [], [],
    .mk [.field none ⟨"a", inFieldA 1 2⟩ [] [] none (inFieldA 1 2)] (inFieldA 0 3),
    inFieldA 0 3⟩], inFieldA 0 3⟩

theorem parse_fieldA : Node.parse .document .standard fieldA = .ok fieldANode := by
  have tokens : tokenize fieldA.body =
      [⟨.punctuator .openBrace, ⟨⟨0, 0, 0, 0⟩, ⟨0, 1, 1, 1⟩⟩⟩,
        ⟨.name "a", ⟨⟨0, 1, 1, 1⟩, ⟨0, 2, 2, 2⟩⟩⟩,
        ⟨.punctuator .closeBrace, ⟨⟨0, 2, 2, 2⟩, ⟨0, 3, 3, 3⟩⟩⟩,
        ⟨.endOfInput, .emptyAt ⟨0, 3, 3, 3⟩⟩] := by
    have chars : fieldA.body.toList = ['\x7b', 'a', '\x7d'] := by decide
    rw [tokenize, Token.listOf, chars, Lexical.listFrom_cons (c := '\x7b') rfl,
      Lexical.listFrom_cons (c := 'a') rfl, Lexical.listFrom_cons (c := '\x7d') rfl,
      Lexical.listFrom_end rfl]
    rfl
  rw [Node.parse, tokens, Node.ofTokens_eq]
  rfl

/-- Hooks that do nothing. -/
def idleHooks : Hooks Unit (Option Location) :=
  ⟨.keep, .keep⟩

/-- The nodes of the query are intervals of its three bytes, also as a visit enters
them. -/
theorem fieldA_isIntervalTree :
    (∃ t : Tree Span, fieldANode.toTree = t.map (fun s => some ⟨s, fieldA⟩) ∧
      (∀ x ∈ t.nodes, x.2.IsInterval fieldA.body) ∧ t.nodes.Pairwise StartsBefore) ∧
    (entered (idleHooks.calls 9 5 fieldANode.toTree.numbered.1 ())).Pairwise LocatedBefore := by
  obtain ⟨t, tree, intervals, sorted, visits⟩ := parse_isIntervalTree parse_fieldA
  exact ⟨⟨t, tree, intervals, sorted⟩,
    visits Unit idleHooks 9 5 fieldANode.toTree.numbered.1 () rfl (by decide +kernel)⟩

end QueryDoc
