import QueryDoc.Proofs.Lexical.Advance
import QueryDoc.Text.Source

/-!
# The tokens partition the text

Lexing loses nothing. The spans of the tokens lie one after the other on the
text, what they leave out is white space, commas and comments, and the text of a
token that is no error is its own spelling, by the rule of its kind and as long
as that rule allows. Along a run this is kept by the relation `Tiles` between
what has been read, what is left and the tokens of what is left. From it the
statement about byte spans, `IsPartition`, is read off.
-/
namespace QueryDoc.Lexical

/-- Text without meaning in front of `next`: insignificant characters and
comments, each of which runs up to the end of its line or of the text. -/
inductive IsGap (next : List Char) : List Char → Prop
  | nil : IsGap next []
  | blank {c : Char} {gap : List Char} :
      isInsignificant c = true → IsGap next gap → IsGap next (c :: gap)
  | comment {text gap : List Char} : (∀ c ∈ text, isLineEnd c = false) →
      StartsOutside (fun c => !isLineEnd c) (gap ++ next) → IsGap next gap →
      IsGap next ('#' :: (text ++ gap))

/-- The text of a token that is no error is its spelling, obeys the rule of its
kind, and what follows it does not go on with it. -/
def Obeys (text rest : List Char) : TokenKind → Prop
  | .punctuator p => text = p.text.toList
  | .name s => text = s.toList ∧ IsName text ∧ text ∉ literalNames ∧
      StartsOutside isNameContinue rest
  | .int s => text = s.toList ∧ IsInteger text ∧ StartsOutside extendsInteger rest
  | .float s => text = s.toList ∧ IsFloat text ∧ StartsOutside Char.isDigit rest
  | .string raw => text = raw.toList
  | .boolean b => text = (if b then "true" else "false").toList ∧
      StartsOutside isNameContinue rest
  | .null => text = "null".toList ∧ StartsOutside isNameContinue rest
  | .endOfInput => text = []
  | .error _ _ => True

/-- The characters between two byte offsets, if both fall between characters. -/
def sliceBytes (start stop : Nat) (cs : List Char) : Option (List Char) :=
  if start ≤ stop then (dropBytes start cs).bind (takeBytes (stop - start)) else none

/-- Where the last of some tokens ends, the start of the text if there is none. -/
def endOffset (tokens : List Token) : Nat :=
  (tokens.getLast?.map fun t => t.span.stop.offset).getD 0

/-- A list of tokens accounts for every byte of a text. -/
structure IsPartition (body : List Char) (tokens : List Token) : Prop where
  /-- The end of input comes last and once, and stands at the end of the text. -/
  ending : ∃ units p, tokens = units ++ [⟨.endOfInput, .emptyAt p⟩] ∧
    p.offset = byteLength body ∧ ∀ t ∈ units, t.kind ≠ .endOfInput
  /-- Every other token covers some text, which is its own. -/
  unit : ∀ t ∈ tokens, t.kind ≠ .endOfInput →
    t.span.start.offset < t.span.stop.offset ∧
    ∃ text rest, sliceBytes t.span.start.offset t.span.stop.offset body = some text ∧
      dropBytes t.span.stop.offset body = some rest ∧ Obeys text rest t.kind
  ordered : tokens.Pairwise fun t u => t.span.stop.offset ≤ u.span.start.offset
  /-- What lies between the end of a token, or the start of the text, and the
  next token has no meaning. -/
  gap : ∀ before t after, tokens = before ++ t :: after →
    ∃ gap next, sliceBytes (endOffset before) t.span.start.offset body = some gap ∧
      dropBytes t.span.start.offset body = some next ∧ IsGap next gap

/-- The tokens of the text `left`, of which `read` stands in front. -/
inductive Tiles : List Char → List Char → List Token → Prop
  | stop {read gap : List Char} {p : Position} : IsGap [] gap →
      p.offset = byteLength (read ++ gap) → Tiles read gap [⟨.endOfInput, .emptyAt p⟩]
  | unit {read gap text rest : List Char} {t : Token} {ts : List Token} :
      IsGap (text ++ rest) gap → text ≠ [] → t.kind ≠ .endOfInput →
      t.span.start.offset = byteLength (read ++ gap) →
      t.span.stop.offset = byteLength (read ++ gap ++ text) → Obeys text rest t.kind →
      Tiles (read ++ gap ++ text) rest ts → Tiles read (gap ++ (text ++ rest)) (t :: ts)

/-! ## Slices -/

theorem byteLength_pos {cs : List Char} (h : cs ≠ []) : 0 < byteLength cs := by
  cases cs with
  | nil => exact absurd rfl h
  | cons c cs =>
    have := c.utf8Size_pos
    simp only [byteLength]
    omega

theorem sliceBytes_append (cs ds es : List Char) :
    sliceBytes (byteLength cs) (byteLength (cs ++ ds)) (cs ++ (ds ++ es)) = some ds := by
  have hle : byteLength cs ≤ byteLength (cs ++ ds) := by rw [byteLength_append]; omega
  have hsub : byteLength (cs ++ ds) - byteLength cs = byteLength ds := by
    rw [byteLength_append]; omega
  rw [sliceBytes, if_pos hle, dropBytes_append, Option.bind_some, hsub, takeBytes_append]

/-! ## Gaps -/

theorem isInsignificant_of_isLineEnd {c : Char} (h : isLineEnd c = true) :
    isInsignificant c = true := by
  simp only [isLineEnd, Bool.or_eq_true, beq_iff_eq] at h
  rcases h with rfl | rfl <;> decide

/-- What is skipped is a gap, also when the skipping starts inside a comment. -/
theorem splitIgnored_gap (cs : List Char) :
    IsGap (splitIgnored false cs).2 (splitIgnored false cs).1 ∧
      ∃ text gap, (splitIgnored true cs).1 = text ++ gap ∧ (∀ c ∈ text, isLineEnd c = false) ∧
        StartsOutside (fun c => !isLineEnd c) (gap ++ (splitIgnored true cs).2) ∧
        IsGap (splitIgnored true cs).2 gap := by
  induction cs with
  | nil =>
    refine ⟨by simpa only [splitIgnored] using .nil, [], [], rfl, by simp, ?_, .nil⟩
    intro c hc
    simp [splitIgnored] at hc
  | cons c cs ih =>
    obtain ⟨hgap, text, gap, heq, htext, hend, hrest⟩ := ih
    constructor
    · by_cases hi : isInsignificant c = true
      · simp only [splitIgnored, hi, if_true]
        exact .blank hi hgap
      · by_cases hc : c = '#'
        · simp only [splitIgnored, hc, if_true, heq]
          exact .comment htext hend hrest
        · simp only [splitIgnored, hi, hc, if_false]
          exact .nil
    · by_cases hl : isLineEnd c = true
      · have hi := isInsignificant_of_isLineEnd hl
        simp only [splitIgnored, hl, Bool.not_true]
        refine ⟨[], c :: (splitIgnored false cs).1, rfl, by simp, ?_, .blank hi hgap⟩
        intro d hd
        have : c = d := by simpa using hd
        simp [← this, hl]
      · have hf : isLineEnd c = false := by simpa using hl
        simp only [splitIgnored, hf, Bool.not_false]
        refine ⟨c :: text, gap, by simp [heq], ?_, hend, hrest⟩
        intro d hd
        rcases List.mem_cons.1 hd with rfl | hd
        · exact hf
        · exact htext d hd

/-! ## The run -/

theorem toKind_ne_endOfInput (start : Position) (text : List Char) (l : Lexeme) :
    l.toKind start text ≠ .endOfInput := by
  cases l with
  | name =>
    simp only [Lexeme.toKind]
    split
    · simp
    · split
      · simp
      · split <;> simp
  | _ => simp [Lexeme.toKind]

theorem obeys_toKind {text rest : List Char} {l : Lexeme} (start : Position)
    (h : Fits text rest l) : Obeys text rest (l.toKind start text) := by
  cases l with
  | punctuator p => exact h
  | name =>
    obtain ⟨hn, hr⟩ := h
    simp only [Lexeme.toKind]
    split
    · exact ⟨‹_›, hr⟩
    · split
      · exact ⟨‹_›, hr⟩
      · split
        · exact ⟨‹_›, hr⟩
        · rename_i h1 h2 h3
          refine ⟨by simp, hn, ?_, hr⟩
          simp only [literalNames, List.mem_cons, List.not_mem_nil, or_false, not_or]
          exact ⟨h1, h2, h3⟩
  | int => exact ⟨by simp, h⟩
  | float => exact ⟨by simp, h⟩
  | string => simp [Lexeme.toKind, Obeys]
  | fault f => trivial

theorem listFrom_tiles (r : Reading) (read cs : List Char)
    (hr : r.position.offset = byteLength read) : Tiles read cs (Token.listFrom r cs) := by
  induction hn : cs.length using Nat.strong_induction_on generalizing r read cs with
  | _ n ih =>
    have happ := splitIgnored_append false cs
    have hgap := (splitIgnored_gap cs).1
    have hstart : (r.through (splitIgnored false cs).1).position.offset =
        byteLength (read ++ (splitIgnored false cs).1) := by
      rw [Reading.offset_through, byteLength_append, hr]
    cases hsplit : (splitIgnored false cs).2 with
    | nil =>
      rw [hsplit, List.append_nil] at happ
      rw [hsplit, happ] at hgap
      rw [happ] at hstart
      rw [listFrom_end hsplit]
      exact .stop hgap hstart
    | cons c rest =>
      have hnext := Scan.next_append c rest
      have hshort := Scan.length_next_rest_lt c rest
      have hlen := length_splitIgnored_le false cs
      rw [hsplit] at happ hgap hlen
      rw [← hnext] at hgap
      have hstop : ((r.through (splitIgnored false cs).1).through
          (Scan.next c rest).text).position.offset =
          byteLength (read ++ (splitIgnored false cs).1 ++ (Scan.next c rest).text) := by
        rw [Reading.offset_through, hstart, byteLength_append (read ++ _)]
      have htail := ih (Scan.next c rest).rest.length (by omega) _ _ _ hstop rfl
      have hunit := Tiles.unit (t := Token.ofScan (r.through (splitIgnored false cs).1)
        (Scan.next c rest)) hgap (Scan.next_text_ne_nil c rest)
        (toKind_ne_endOfInput _ _ _) hstart hstop (obeys_toKind _ (next_fits c rest)) htail
      rw [hnext, happ] at hunit
      rw [listFrom_cons hsplit]
      exact hunit

/-! ## Reading off the spans -/

theorem Tiles.ending {read left : List Char} {tokens : List Token} (h : Tiles read left tokens) :
    ∃ units p, tokens = units ++ [⟨.endOfInput, .emptyAt p⟩] ∧
      p.offset = byteLength (read ++ left) ∧ ∀ t ∈ units, t.kind ≠ .endOfInput := by
  induction h with
  | @stop read gap p _ hp => exact ⟨[], p, rfl, hp, by simp⟩
  | @unit read gap text rest t ts _ _ hk _ _ _ _ ih =>
    obtain ⟨units, p, rfl, hp, hu⟩ := ih
    refine ⟨t :: units, p, rfl, ?_, ?_⟩
    · rw [hp, List.append_assoc, List.append_assoc]
    · intro u hmem
      rcases List.mem_cons.1 hmem with rfl | hmem
      · exact hk
      · exact hu u hmem

theorem Tiles.unit_spec {read left : List Char} {tokens : List Token}
    (h : Tiles read left tokens) : ∀ t ∈ tokens, t.kind ≠ .endOfInput →
      t.span.start.offset < t.span.stop.offset ∧
      ∃ text rest, sliceBytes t.span.start.offset t.span.stop.offset (read ++ left) = some text ∧
        dropBytes t.span.stop.offset (read ++ left) = some rest ∧ Obeys text rest t.kind := by
  induction h with
  | stop =>
    intro t ht hk
    rw [List.mem_singleton.1 ht] at hk
    exact absurd rfl hk
  | @unit read gap text rest u us _ hne _ hstart hstop hobeys _ ih =>
    intro t ht hk
    have hbody : read ++ (gap ++ (text ++ rest)) = read ++ gap ++ text ++ rest := by simp
    rcases List.mem_cons.1 ht with rfl | ht
    · refine ⟨?_, text, rest, ?_, ?_, hobeys⟩
      · have := byteLength_pos hne
        rw [hstart, hstop, byteLength_append (read ++ gap)]
        omega
      · rw [hstart, hstop, ← List.append_assoc]
        exact sliceBytes_append (read ++ gap) text rest
      · rw [hbody, hstop]
        exact dropBytes_append _ _
    · rw [hbody]
      exact ih t ht hk

theorem Tiles.start_le {read left : List Char} {tokens : List Token}
    (h : Tiles read left tokens) : ∀ t ∈ tokens, byteLength read ≤ t.span.start.offset := by
  induction h with
  | stop _ hp =>
    intro t ht
    rw [List.mem_singleton.1 ht]
    simp only [Span.emptyAt, hp, byteLength_append]
    omega
  | unit _ _ _ hstart _ _ _ ih =>
    intro t ht
    rcases List.mem_cons.1 ht with rfl | ht
    · rw [hstart, byteLength_append]
      omega
    · have := ih t ht
      simp only [byteLength_append] at this
      omega

theorem Tiles.ordered {read left : List Char} {tokens : List Token}
    (h : Tiles read left tokens) :
    tokens.Pairwise fun t u => t.span.stop.offset ≤ u.span.start.offset := by
  induction h with
  | stop => exact List.pairwise_singleton _ _
  | unit _ _ _ _ hstop _ htail ih =>
    refine List.pairwise_cons.2 ⟨fun u hu => ?_, ih⟩
    rw [hstop]
    exact htail.start_le u hu

theorem Tiles.gap_spec {read left : List Char} {tokens : List Token}
    (h : Tiles read left tokens) : ∀ before t after, tokens = before ++ t :: after →
      ∃ gap next, sliceBytes ((before.getLast?.map fun t => t.span.stop.offset).getD
          (byteLength read)) t.span.start.offset (read ++ left) = some gap ∧
        dropBytes t.span.start.offset (read ++ left) = some next ∧ IsGap next gap := by
  induction h with
  | @stop read gap p hgap hp =>
    intro before t after heq
    cases before with
    | cons b bs => simp at heq
    | nil =>
      obtain ⟨rfl, -⟩ := List.cons.inj heq
      refine ⟨gap, [], ?_, ?_, hgap⟩
      · have := sliceBytes_append read gap []
        rw [List.append_nil] at this
        simpa only [List.getLast?_nil, Option.map_none, Option.getD_none, Span.emptyAt, hp]
          using this
      · have := dropBytes_append (read ++ gap) []
        rw [List.append_nil] at this
        simpa only [Span.emptyAt, hp] using this
  | @unit read gap text rest u us hgap _ _ hstart hstop _ _ ih =>
    intro before t after heq
    have hbody : read ++ (gap ++ (text ++ rest)) = read ++ gap ++ text ++ rest := by simp
    cases before with
    | nil =>
      obtain ⟨rfl, -⟩ := List.cons.inj heq
      refine ⟨gap, text ++ rest, ?_, ?_, hgap⟩
      · rw [hstart]
        exact sliceBytes_append read gap (text ++ rest)
      · rw [hstart, ← List.append_assoc]
        exact dropBytes_append _ _
    | cons b bs =>
      obtain ⟨rfl, htail⟩ := List.cons.inj heq
      obtain ⟨gap', next, hslice, hdrop, hgap'⟩ := ih bs t after htail
      rw [← hbody] at hslice hdrop
      refine ⟨gap', next, ?_, hdrop, hgap'⟩
      cases bs with
      | nil => simpa [hstop] using hslice
      | cons c cs =>
        rw [List.getLast?_cons_cons]
        rw [List.getLast?_eq_some_getLast (List.cons_ne_nil c cs)] at hslice ⊢
        exact hslice

/-- The tokens of a text account for every byte of it. -/
theorem tokenize_isPartition (body : String) : IsPartition body.toList (tokenize body) := by
  have h : Tiles [] body.toList (tokenize body) := listFrom_tiles .start [] body.toList rfl
  exact ⟨h.ending, h.unit_spec, h.ordered, h.gap_spec⟩

end QueryDoc.Lexical
