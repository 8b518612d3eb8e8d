import QueryDoc.Proofs.Lexical.Cut
import QueryDoc.Proofs.Location.Cover

/-!
# The text under some tokens in a row

A run of the lexer reaches from one place in the text to a later one and gives
the tokens in between. The text between the two places is a text of its own,
which gives tokens of the same kinds. So some tokens in a row have a text, from
the start of the first to the end of the last.
-/
namespace QueryDoc.Lexical

theorem tokenize_tiles (body : String) : Tiles [] body.toList (tokenize body) :=
  listFrom_tiles .start [] body.toList rfl

/-- The lexer, having read `r` with `cs` left, gives the tokens `ts` and then has
read `r'` with `cs'` left. -/
inductive Run : Reading → List Char → List Token → Reading → List Char → Prop
  | nil (r : Reading) (cs : List Char) : Run r cs [] r cs
  | cons {r r' : Reading} {c : Char} {cs more cs' : List Char} {ts : List Token} :
      (splitIgnored false cs).2 = c :: more →
      Run ((r.through (splitIgnored false cs).1).through (Scan.next c more).text)
        (Scan.next c more).rest ts r' cs' →
      Run r cs (Token.ofScan (r.through (splitIgnored false cs).1) (Scan.next c more) :: ts) r' cs'

/-- Up to a token that is left the lexer runs. -/
theorem exists_run {r : Reading} {cs : List Char} {ts us : List Token}
    (h : Token.listFrom r cs = ts ++ us) (hts : ∀ t ∈ ts, t.kind.isProper = true) :
    ∃ r' cs', Run r cs ts r' cs' ∧ Token.listFrom r' cs' = us := by
  induction ts generalizing r cs with
  | nil => exact ⟨r, cs, .nil r cs, h⟩
  | cons t ts ih =>
    obtain ⟨proper, htail'⟩ := List.forall_mem_cons.1 hts
    cases hsplit : (splitIgnored false cs).2 with
    | nil =>
      have kinds := listFrom_nil (r := r) hsplit
      rw [h, List.cons_append, List.map_cons] at kinds
      exact absurd (List.cons.inj kinds).1 (TokenKind.ne_endOfInput_of_isProper proper)
    | cons c more =>
      rw [listFrom_cons hsplit, List.cons_append] at h
      obtain ⟨rfl, htail⟩ := List.cons.inj h
      obtain ⟨r', cs', run, hus⟩ := ih htail htail'
      exact ⟨r', cs', .cons hsplit run, hus⟩

namespace Run
variable {r r' : Reading} {cs cs' : List Char} {t : Token} {ts us : List Token}

theorem split (h : Run r cs (ts ++ us) r' cs') :
    ∃ r₁ cs₁, Run r cs ts r₁ cs₁ ∧ Run r₁ cs₁ us r' cs' := by
  induction ts generalizing r cs with
  | nil => exact ⟨r, cs, .nil r cs, h⟩
  | cons t ts ih =>
    cases h with
    | cons hsplit run =>
      obtain ⟨r₁, cs₁, first, second⟩ := ih run
      exact ⟨r₁, cs₁, .cons hsplit first, second⟩

end Run

theorem isUnit_of_proper {start : Reading} {s : Scan}
    (h : (Token.ofScan start s).kind.isProper = true) : s.IsUnit := by
  intro f hf
  rw [Token.ofScan, hf] at h
  cases h

namespace Run
variable {r r' : Reading} {cs cs' : List Char} {t : Token} {ts : List Token}

/-- What a run goes through is a text that gives the same tokens in front of any text that
does not go on with the last of them. -/
theorem text_before (h : Run r cs ts r' cs') (hts : ∀ t ∈ ts, t.kind.isProper = true) :
    ∃ mid, cs = mid ++ cs' ∧ r' = r.through mid ∧ ∀ keep more, Harmless keep cs' →
      LexesTo keep more → LexesTo (mid ++ keep) (ts.map Token.kind ++ more) := by
  induction h with
  | nil r cs => exact ⟨[], rfl, rfl, fun keep more _ hmore => hmore⟩
  | @cons r r' c cs more cs' ts hsplit run ih =>
    obtain ⟨proper, htail⟩ := List.forall_mem_cons.1 hts
    obtain ⟨mid, hrest, hreading, hlex⟩ := ih htail
    have unit := isUnit_of_proper proper
    have happ := splitIgnored_append false cs
    have hnext := Scan.next_append c more
    refine ⟨(splitIgnored false cs).1 ++ (Scan.next c more).text ++ mid, ?_, ?_, ?_⟩
    · rw [List.append_assoc, ← hrest, List.append_assoc, hnext, ← hsplit, happ]
    · rw [hreading, Reading.through_append, Reading.through_append]
    · -- what ended the unit in the whole text may be gone, and the unit ends all the same
      intro keep others hkeep hothers start
      obtain ⟨ds, htext, cut⟩ := next_cut unit (hrest ▸ hkeep.append mid)
      have skip := splitIgnored_cut hsplit (ds ++ (mid ++ keep))
      rw [List.append_assoc, List.append_assoc, htext, List.cons_append,
        listFrom_cons (by rw [skip]), skip, cut]
      simp only [Scan.before, List.map_cons, List.cons_append]
      rw [hlex keep others hkeep hothers]
      congr 1
      exact toKind_of_isUnit unit _ _

/-- What a run goes through is a text that gives the same tokens. -/
theorem text (h : Run r cs ts r' cs') (hts : ∀ t ∈ ts, t.kind.isProper = true) :
    ∃ mid, cs = mid ++ cs' ∧ r' = r.through mid ∧ LexesTo mid (ts.map Token.kind) := by
  obtain ⟨mid, hcs, hreading, hlex⟩ := h.text_before hts
  refine ⟨mid, hcs, hreading, ?_⟩
  simpa only [List.append_nil] using hlex [] [] (.nil cs') .nil

/-- The first token starts where nothing is left to skip. -/
theorem first (h : Run r cs (t :: ts) r' cs') :
    ∃ gap rest, cs = gap ++ rest ∧ t.span.start = (r.through gap).position ∧
      Run (r.through gap) rest (t :: ts) r' cs' := by
  cases h with
  | @cons _ _ c _ more _ ts hsplit run =>
    have happ := splitIgnored_append false cs
    have skip := splitIgnored_rest false cs
    refine ⟨(splitIgnored false cs).1, (splitIgnored false cs).2, happ.symm, rfl, ?_⟩
    have again := @Run.cons (r.through (splitIgnored false cs).1) r' c (splitIgnored false cs).2
      more cs' ts (by rw [skip]; exact hsplit) (by rw [skip]; exact run)
    rw [skip] at again
    exact again

/-- The last token ends where the run does. -/
theorem last (h : Run r cs ts r' cs') (hts : ts ≠ []) : stopOf ts = some r'.position := by
  induction h with
  | nil => exact absurd rfl hts
  | @cons r r' c cs more cs' ts hsplit run ih =>
    cases run with
    | nil => rfl
    | cons hsplit' run' => exact ih (List.cons_ne_nil _ _)

end Run

/-- Some tokens in a row, none of them the end of input or an error, have a text. -/
theorem exists_text {body : String} {before ts after : List Token}
    (h : tokenize body = before ++ (ts ++ after))
    (proper : ∀ t ∈ before ++ ts, t.kind.isProper = true) (hne : ts ≠ []) :
    ∃ pre mid post, body.toList = pre ++ (mid ++ post) ∧
      hull ts = some ⟨.after pre, .after (pre ++ mid)⟩ ∧ LexesTo mid (ts.map Token.kind) := by
  rw [← List.append_assoc] at h
  obtain ⟨r', cs', run, -⟩ := exists_run h proper
  obtain ⟨r₁, cs₁, skipped, run⟩ := run.split
  rw [List.forall_mem_append] at proper
  obtain ⟨pre, hpre, rfl, -⟩ := skipped.text proper.1
  cases ts with
  | nil => exact absurd rfl hne
  | cons t ts =>
    obtain ⟨gap, rest, rfl, start, run⟩ := run.first
    obtain ⟨mid, rfl, rfl, hlex⟩ := run.text proper.2
    refine ⟨pre ++ gap, mid, cs', by rw [hpre, List.append_assoc], ?_, hlex⟩
    rw [hull_eq_some, startOf_cons, start, run.last hne]
    simp only [Position.after, Reading.through_append, and_self]

/-- The end of input stands after the whole text. -/
theorem stop_endOfInput {body : String} {before after : List Token} {e : Token}
    (h : tokenize body = before ++ e :: after) (proper : ∀ t ∈ before, t.kind.isProper = true)
    (hend : e.kind = .endOfInput) : e.span = .emptyAt (.after body.toList) := by
  obtain ⟨r', cs', run, hrest⟩ := exists_run h proper
  obtain ⟨read, hread, rfl, -⟩ := run.text proper
  cases hsplit : (splitIgnored false cs').2 with
  | nil =>
    rw [listFrom_end hsplit] at hrest
    obtain ⟨rfl, -⟩ := List.cons.inj hrest
    rw [hread, Position.after, Reading.through_append]
  | cons c more =>
    rw [listFrom_cons hsplit] at hrest
    rw [← (List.cons.inj hrest).1] at hend
    exact absurd hend (toKind_ne_endOfInput _ _ _)

end QueryDoc.Lexical
