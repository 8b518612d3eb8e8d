import QueryDoc.Proofs.Grammar.Blame
import QueryDoc.Proofs.Lexical.Origin
import QueryDoc.Proofs.Location.Interval
import QueryDoc.Request.Error

/-!
# Two ways to a place

A request error knows a place either as a position, which the lexer has tracked
while it read, or as a byte offset, whose position is counted from the text again.
The two counters treat line ends in ways of their own. They agree after each character,
for the flag that one of them sets is the bit that the other carries, and so they agree
on every text. Every token starts and stops between two characters, and so do errors and
nodes. What has been read up to such a place is determined by its length in bytes.
-/
namespace QueryDoc

/-! ## Two counters -/

/-- The shortest prefix that takes at least `offset` bytes, or the whole text
if it is shorter than that. -/
def readingUpTo (offset : Nat) : List Char → List Char
  | [] => []
  | c :: cs => if offset = 0 then [] else c :: readingUpTo (offset - c.utf8Size) cs

/-- One character, counted from an offset and read by the lexer. -/
theorem Reading.step_eq_count (r : Reading) (c : Char) :
    r.step c = ⟨r.position.count r.afterReturn c (r.position.offset + c.utf8Size), c == '\r'⟩ := by
  by_cases hfeed : c = '\n'
  · cases hreturn : r.afterReturn <;> simp [step, Position.count, hfeed, hreturn]
  · by_cases hreturn : c = '\r' <;> simp [step, Position.count, hfeed, hreturn]

theorem Position.countTo_eq (offset : Nat) (r : Reading) (cs : List Char) :
    countTo offset r.position r.afterReturn (charIndices r.position.offset cs) =
      (r.through (readingUpTo (offset - r.position.offset) cs)).position := by
  induction cs generalizing r with
  | nil => rfl
  | cons c cs ih =>
    rw [charIndices, countTo, readingUpTo]
    by_cases hreached : offset ≤ r.position.offset
    · rw [if_pos hreached, if_pos (Nat.sub_eq_zero_of_le hreached)]
      rfl
    · have hsub : offset - r.position.offset - c.utf8Size =
          offset - (r.step c).position.offset := by
        rw [Reading.offset_step, Nat.sub_sub]
      rw [if_neg hreached, if_neg (by omega), Reading.through_cons, hsub, ← ih,
        Reading.offset_step, Reading.step_eq_count]

/-- An offset has the position that the lexer would reach by reading up to it. -/
theorem Position.atOffset_eq_after (text : List Char) (offset : Nat) :
    atOffset text offset = after (readingUpTo offset text) :=
  countTo_eq offset .start text

/-! ## Positions between characters -/

theorem readingUpTo_append (cs ds : List Char) : readingUpTo (byteLength cs) (cs ++ ds) = cs := by
  induction cs with
  | nil => cases ds <;> rfl
  | cons c cs ih =>
    have hpos := c.utf8Size_pos
    have hne : byteLength (c :: cs) ≠ 0 := by rw [byteLength]; omega
    have hsub : byteLength (c :: cs) - c.utf8Size = byteLength cs := by rw [byteLength]; omega
    rw [List.cons_append, readingUpTo, if_neg hne, hsub, ih]

/-- The position is computed from its offset. -/
theorem Position.IsBoundary.atOffset_eq {body : String} {p : Position} (h : p.IsBoundary body) :
    Position.atOffset body.toList p.offset = p := by
  obtain ⟨before, ⟨rest, hrest⟩, rfl⟩ := h
  rw [atOffset_eq_after, offset_after, ← hrest, readingUpTo_append]

theorem Position.isBoundary_after {body : String} {before rest : List Char}
    (h : body.toList = before ++ rest) : (Position.after before).IsBoundary body :=
  ⟨before, ⟨rest, h.symm⟩, rfl⟩

/-! ## Tokens and errors -/

/-- The positions that the lexer tracks are those of the text read so far. -/
theorem tokenize_boundaries (body : String) :
    ∀ t ∈ tokenize body, t.span.start.IsBoundary body ∧ t.span.stop.IsBoundary body := by
  intro t ht
  obtain ⟨before, left, origin⟩ := tokenize_comesFrom body t ht
  obtain ⟨text, rest, hleft, hstop⟩ := origin.exists_stop
  have hbody : body.toList = (before ++ text) ++ rest := by
    rw [origin.body_eq, hleft, List.append_assoc]
  rw [origin.start_eq, hstop]
  exact ⟨Position.isBoundary_after origin.body_eq, Position.isBoundary_after hbody⟩

theorem tokenize_ends (body : String) :
    (tokenize body).getLast?.map Token.kind = some .endOfInput := by
  obtain ⟨units, p, htokens, -, -⟩ := (Lexical.tokenize_tiles body).ending
  rw [htokens, List.getLast?_concat]
  rfl

section Errors
variable {entry : Entry} {options : ParseOptions} {source : Source} {e : ParseError}

/-- An error stands in the source that was parsed, and starts between characters. -/
theorem ParseError.start_isBoundary (h : Node.parse entry options source = .error e) :
    e.source = source ∧ e.span.start.IsBoundary source.body := by
  obtain ⟨t, ht, hstart⟩ := Node.error_starts_at_token (tokenize_ends source.body) h
  exact ⟨(Node.ofTokens_eq_error.1 h).2, hstart ▸ (tokenize_boundaries source.body t ht).1⟩

/-- A syntax error as a request error has one place, that of the syntax error. -/
theorem RequestError.ofParse_places (h : e.span.start.IsBoundary e.source.body) :
    (RequestError.ofParse e).report.places = [e.place] := by
  have hplace : e.source.place (.atOffset e.source.chars e.offset) = e.place :=
    congrArg e.source.place h.atOffset_eq
  simp [RequestError.ofParse, Report.places, Report.source?, hplace]

end Errors

/-! ## Nodes -/

/-- The tree belongs to one that was parsed with locations from the source. -/
def Tree.IsParsedFrom (source : Source) (t : Tree (Option Location)) : Prop :=
  ∃ entry n path, Node.parse entry .standard source = .ok n ∧ (path, t) ∈ n.toTree.nodes

/-- The byte at which a node starts, if it has a location. -/
def Tree.startOffset? (t : Tree (Option Location)) : Option Nat :=
  t.info.map fun l => l.span.start.offset

theorem Tree.IsParsedFrom.exists_location {source : Source} {t : Tree (Option Location)}
    (h : t.IsParsedFrom source) :
    ∃ l : Location, t.info = some l ∧ l.source = source ∧ l.span.start.IsBoundary source.body := by
  obtain ⟨entry, n, path, hparse, hmem⟩ := h
  obtain ⟨spans, htree, hintervals, -, -⟩ := parse_isIntervalTree hparse
  rw [htree, Tree.nodes_map] at hmem
  obtain ⟨⟨path', u⟩, hu, heq⟩ := List.mem_map.1 hmem
  cases heq
  exact ⟨⟨u.info, source⟩, Tree.info_map _ u, rfl, (hintervals _ hu).start_boundary⟩

theorem exists_locations {P : Location → Prop} {ts : List (Tree (Option Location))}
    (h : ∀ t ∈ ts, ∃ l, t.info = some l ∧ P l) :
    ∃ ls : List Location, ts.map Tree.info = ls.map some ∧ ∀ l ∈ ls, P l := by
  induction ts with
  | nil => exact ⟨[], rfl, by simp⟩
  | cons t ts ih =>
    obtain ⟨⟨l, hl, hP⟩, hts⟩ := List.forall_mem_cons.1 h
    obtain ⟨ls, hls, hPs⟩ := ih hts
    exact ⟨l :: ls, by simp [hl, hls], List.forall_mem_cons.2 ⟨hP, hPs⟩⟩

theorem Report.nodeLocations_eq {r : Report} {ls : List Location}
    (h : r.nodes.map Tree.info = ls.map some) : r.nodeLocations = ls := by
  have hmap : r.nodeLocations = (r.nodes.map Tree.info).filterMap id := by
    rw [List.filterMap_map]
    rfl
  rw [hmap, h, List.filterMap_map]
  simp

section Reports
variable {source : Source} {r r' : Report} {ls : List Location}

/-- Offsets that are given go first; they give the places of the nodes that start there. -/
theorem Report.agree_of_locations (hne : ls ≠ [])
    (hls : ∀ l ∈ ls, l.source = source ∧ l.span.start.IsBoundary source.body)
    (hnodes : r.nodes.map Tree.info = ls.map some) (hoffsets : r.offsets = [])
    (hsource : r'.source = some source)
    (hgiven : r'.offsets = ls.map fun l => l.span.start.offset) :
    r'.positions = r.positions ∧ r'.places = r.places := by
  have hlocations := Report.nodeLocations_eq hnodes
  have hempty : r'.offsets.isEmpty = false := by simpa [hgiven] using hne
  constructor
  · simp only [Report.positions, hempty, hoffsets, hlocations, List.isEmpty_nil, if_true,
      Bool.false_eq_true, if_false]
    exact hgiven
  · have hplace : ∀ l ∈ ls, source.place (.atOffset source.chars l.span.start.offset) =
        l.source.place l.span.start := by
      intro l hl
      obtain ⟨rfl, hboundary⟩ := hls l hl
      exact congrArg l.source.place hboundary.atOffset_eq
    simp only [Report.places, Report.source?, hempty, hoffsets, hlocations, hsource,
      List.isEmpty_nil, if_true, Bool.false_eq_true, if_false, Option.some_or]
    rw [hgiven, List.map_map]
    exact List.map_congr_left hplace

end Reports

/-- **Places computed from offsets are the places tracked by the lexer.** A syntax
error of the source has the same place as a request error that is made from it. A
request error about nodes that were parsed from the source has the same positions and
places as one that is given the source and the offsets at which the nodes start. -/
theorem places_agree (source : Source) :
    (∀ entry options e, Node.parse entry options source = .error e →
      (RequestError.ofParse e).report.places = [e.place]) ∧
    ∀ nodes : List (Tree (Option Location)), nodes ≠ [] →
      (∀ t ∈ nodes, t.IsParsedFrom source) →
      ∃ offsets : List Nat, nodes.map Tree.startOffset? = offsets.map some ∧
        ∀ r r' : Report, r.nodes = nodes → r.offsets = [] →
          r'.source = some source → r'.offsets = offsets →
          r'.positions = r.positions ∧ r'.places = r.places := by
  refine ⟨fun entry options e h => ?_, fun nodes hne hparsed => ?_⟩
  · obtain ⟨hsource, hboundary⟩ := ParseError.start_isBoundary h
    exact RequestError.ofParse_places (hsource ▸ hboundary)
  · obtain ⟨ls, hinfo, hls⟩ := exists_locations fun t ht => (hparsed t ht).exists_location
    have hlocations : ls ≠ [] := by
      rintro rfl
      exact hne (List.map_eq_nil_iff.1 hinfo)
    refine ⟨ls.map fun l => l.span.start.offset, ?_, fun r r' hnodes hoffsets hsource hgiven => ?_⟩
    · have hstart : nodes.map Tree.startOffset? =
          (nodes.map Tree.info).map (Option.map fun l => l.span.start.offset) := by
        rw [List.map_map]
        rfl
      rw [hstart, hinfo, List.map_map, List.map_map]
      rfl
    · exact Report.agree_of_locations hlocations hls (hnodes ▸ hinfo) hoffsets hsource hgiven

/-- A closing brace on the second line, in a file that goes on before. -/
def strayBrace : Source := ⟨"\r\n \x7d", "query", ⟨3, 5⟩⟩

theorem parse_strayBrace :
    Node.parse .document .standard strayBrace = .error
      ⟨⟨.unexpectedToken Parser.definitionStarts "\x7d", .document,
        ⟨⟨1, 1, 1, 3⟩, ⟨1, 2, 2, 4⟩⟩, []⟩, strayBrace⟩ := by
  have tokens : tokenize strayBrace.body =
      [⟨.punctuator .closeBrace, ⟨⟨1, 1, 1, 3⟩, ⟨1, 2, 2, 4⟩⟩⟩,
        ⟨.endOfInput, .emptyAt ⟨1, 2, 2, 4⟩⟩] := by
    have chars : strayBrace.body.toList = ['\r', '\n', ' ', '\x7d'] := by decide
    rw [tokenize, Token.listOf, chars, Lexical.listFrom_cons (c := '\x7d') rfl,
      Lexical.listFrom_end rfl]
    rfl
  rw [Node.parse, tokens]
  rfl

/-- The brace is found in the fourth line of the file, and the query where its offset
says. -/
theorem strayBrace_places :
    (∃ e, Node.parse .document .standard strayBrace = .error e ∧
      (RequestError.ofParse e).report.places = [⟨4, 2⟩]) ∧
    ({ Report.ofMessage "here" with source := some fieldA, offsets := [0] }).places =
      ({ Report.ofMessage "here" with nodes := [fieldANode.toTree] }).places := by
  refine ⟨⟨_, parse_strayBrace, (places_agree strayBrace).1 _ _ _ parse_strayBrace⟩, ?_⟩
  have root : fieldANode.toTree.IsParsedFrom fieldA :=
    ⟨.document, fieldANode, [], parse_fieldA, by simp [Tree.nodes, Tree.walk_eq]⟩
  obtain ⟨offsets, hoffsets, agree⟩ := (places_agree fieldA).2 [fieldANode.toTree]
    (List.cons_ne_nil _ _) (by simpa using root)
  have hzero : [0] = offsets := List.map_injective_iff.2 (Option.some_injective Nat) hoffsets
  exact (agree _ _ rfl rfl rfl hzero).2

end QueryDoc
