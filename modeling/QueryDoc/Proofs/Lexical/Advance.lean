import QueryDoc.Proofs.Lexical.Rule
import QueryDoc.Token.Lexer

/-!
# Stretches that are read as a whole

Comments, names and the runs of string literals end no line. For such a stretch the lexer
adds up the characters, and comes to the same position and the same bit as if it had read
them one by one. So for all that it skips and for every unit that it takes, its position is
the one that reading character by character gives, and its tokens can be told that way.
-/
namespace QueryDoc

namespace Reading

theorem step_of_not_lineEnd (r : Reading) {c : Char} (h : isLineEnd c = false) :
    r.step c = ⟨⟨r.position.line, r.position.column + 1, r.position.column16 + units16 c,
      r.position.offset + c.utf8Size⟩, false⟩ := by
  simp only [isLineEnd, Bool.or_eq_false_iff, beq_eq_false_iff_ne] at h
  simp [step, h.1, h.2]

/-- A stretch in which no line ends may be read as a whole. -/
theorem segment_eq_through (r : Reading) {cs : List Char} (h : ∀ c ∈ cs, isLineEnd c = false) :
    r.segment cs = r.through cs := by
  induction cs generalizing r with
  | nil => simp [segment, length16, byteLength]
  | cons c cs ih =>
    obtain ⟨hc, hcs⟩ := List.forall_mem_cons.1 h
    rw [through_cons, ← ih _ hcs, step_of_not_lineEnd r hc]
    simp [segment, length16, byteLength, Nat.add_assoc, Nat.add_comm, Nat.add_left_comm]

/-- The first character of a run and those that go on with it. -/
theorem segment_run (r : Reading) {c : Char} {p : Char → Bool} (cs : List Char)
    (hc : isLineEnd c = false) (hp : ∀ d, p d = true → isLineEnd d = false) :
    r.segment (c :: cs.takeWhile p) = (r.step c).through (cs.takeWhile p) :=
  r.segment_eq_through (List.forall_mem_cons.2 ⟨hc, fun d hd => hp d (List.mem_takeWhile_imp hd)⟩)

theorem through_takeWhile (r : Reading) (p : Char → Bool) (cs : List Char) :
    (r.through (cs.takeWhile p)).through (cs.dropWhile p) = r.through cs := by
  rw [← through_append, List.takeWhile_append_dropWhile]

theorem isLineEnd_of_isStringRun {c : Char} (h : isStringRun c = true) : isLineEnd c = false := by
  rw [isStringRun, Bool.and_eq_true, Bool.not_eq_true'] at h
  exact h.2

theorem throughIgnored_eq (r : Reading) (cs : List Char) : r.throughIgnored cs = r.through cs := by
  fun_induction throughIgnored r cs with
  | case1 => rfl
  | case2 r cs ih =>
    rw [ih, segment_run r cs (by decide) fun d hd => by simpa using hd, through_takeWhile]
    rfl
  | case3 r c cs _ ih => exact ih

theorem throughQuoted_eq (r : Reading) (cs : List Char) : r.throughQuoted cs = r.through cs := by
  fun_induction throughQuoted r cs with
  | case1 => rfl
  | case2 r c cs ih => exact ih
  | case3 r c cs _ hc ih =>
    rw [ih, segment_run r cs (isLineEnd_of_isStringRun hc) fun d => isLineEnd_of_isStringRun,
      through_takeWhile]
    rfl
  | case4 r c cs _ _ ih => exact ih

theorem throughBlock_eq (r : Reading) (cs : List Char) : r.throughBlock cs = r.through cs := by
  fun_induction throughBlock r cs with
  | case1 => rfl
  | case2 r c cs hc ih =>
    rw [ih, segment_run r cs (isLineEnd_of_isStringRun hc) fun d => isLineEnd_of_isStringRun,
      through_takeWhile]
    rfl
  | case3 r c cs _ ih => exact ih

end Reading

/-! ## Units -/

theorem isLineEnd_of_isNameContinue {c : Char} (h : isNameContinue c = true) :
    isLineEnd c = false := by
  rw [isLineEnd, Bool.or_eq_false_iff, beq_eq_false_iff_ne, beq_eq_false_iff_ne]
  constructor <;> rintro rfl <;> exact absurd h (by decide)

theorem Reading.throughUnit_eq (r : Reading) {text : List Char}
    (h : ∀ c ∈ text.head?, isNameStart c = true → ∀ d ∈ text, isLineEnd d = false) :
    r.throughUnit text = r.through text := by
  fun_cases throughUnit r text with
  | case1 cs => exact throughBlock_eq _ cs
  | case2 cs _ => exact throughQuoted_eq _ cs
  | case3 c cs _ _ hc => exact r.segment_eq_through (h c rfl hc)
  | case4 c cs _ _ hc => rfl
  | case5 => rfl

namespace Lexical

/-- The class of a first character decides which scanner is used. -/
theorem next_name {c : Char} (cs : List Char) (h : isNameStart c = true) :
    isInsignificant c = false ∧ c ≠ '#' ∧ Scan.next c cs = Scan.name (c :: cs) := by
  have hne : ∀ d, isNameStart d = false → c ≠ d := by
    rintro d hd rfl
    rw [h] at hd
    cases hd
  refine ⟨?_, hne _ (by decide), ?_⟩
  · simp [isInsignificant, isSpacing, hne ' ' (by decide), hne '\t' (by decide),
      hne '\uFEFF' (by decide), hne '\n' (by decide), hne '\r' (by decide), hne ',' (by decide)]
  · have hp : Scan.punctuator? c = none := by
      unfold Scan.punctuator?
      split <;> first | rfl | cases h
    simp only [Scan.next, hp, if_neg (hne '.' (by decide)), if_neg (hne '"' (by decide)), h,
      if_true]

/-- Reading a unit counts its characters one by one, however it is done. -/
theorem throughUnit_next (r : Reading) (c : Char) (cs : List Char) :
    r.throughUnit (Scan.next c cs).text = r.through (Scan.next c cs).text := by
  refine r.throughUnit_eq fun d hd hstart => ?_
  have htext := Scan.next_append c cs
  obtain ⟨ds, hds⟩ := List.head?_eq_some_iff.1 hd
  rw [hds] at htext
  obtain rfl : d = c := (List.cons.inj htext).1
  rw [(next_name cs hstart).2.2]
  exact fun e he => isLineEnd_of_isNameContinue (List.mem_takeWhile_imp he)

end Lexical

/-! ## Tokens -/

/-- The token of a unit that was found after reading up to `r`. -/
def Token.ofScan (r : Reading) (s : Scan) : Token :=
  ⟨s.lexeme.toKind r.position s.text, ⟨r.position, (r.through s.text).position⟩⟩

namespace Lexical
variable {r : Reading} {c : Char} {cs rest : List Char}

theorem listFrom_end (h : (splitIgnored false cs).2 = []) :
    Token.listFrom r cs = [⟨.endOfInput, .emptyAt (r.through cs).position⟩] := by
  have happ := splitIgnored_append false cs
  rw [h, List.append_nil] at happ
  rw [Token.listFrom]
  split
  · rw [happ, Reading.throughIgnored_eq]
  · rename_i hcons
    rw [h] at hcons
    cases hcons

theorem listFrom_nil (h : (splitIgnored false cs).2 = []) :
    (Token.listFrom r cs).map Token.kind = [.endOfInput] := by
  rw [listFrom_end h]
  rfl

theorem listFrom_cons (h : (splitIgnored false cs).2 = c :: rest) :
    Token.listFrom r cs =
      Token.ofScan (r.through (splitIgnored false cs).1) (Scan.next c rest) ::
        Token.listFrom ((r.through (splitIgnored false cs).1).through (Scan.next c rest).text)
          (Scan.next c rest).rest := by
  rw [Token.listFrom]
  split
  · rename_i hnil
    rw [h] at hnil
    cases hnil
  · rename_i d ds hcons
    rw [h] at hcons
    obtain ⟨rfl, rfl⟩ := List.cons.inj hcons
    simp only [Reading.throughIgnored_eq, throughUnit_next, Token.ofScan]

end Lexical

end QueryDoc
