import QueryDoc.Proofs.Lexical.Seam

/-!
# Where tokens come from

The lexer stands somewhere in the body whenever it makes a token. What it has read
up to there gives the start of the token, and what is left gives all the rest. The
end of input is made when nothing is left.
-/
namespace QueryDoc

/-- The token is what the lexer makes of the body at one place, with `before` read
and `left` not. -/
inductive Token.ComesFrom (body : List Char) : Token → (before left : List Char) → Prop
  | unit {before : List Char} {c : Char} {more : List Char} : body = before ++ c :: more →
      ComesFrom body (ofScan (Reading.start.through before) (Scan.next c more)) before (c :: more)
  | ending : ComesFrom body ⟨.endOfInput, .emptyAt (.after body)⟩ body []

/-- Skipping stops at a character that is not skipped. -/
theorem Lexical.isInsignificant_of_rest {cs more : List Char} {c : Char}
    (h : (splitIgnored false cs).2 = c :: more) : isInsignificant c = false := by
  have hrest := splitIgnored_rest false cs
  rw [h, splitIgnored] at hrest
  rw [Bool.eq_false_iff]
  intro hc
  rw [if_pos hc] at hrest
  cases congrArg Prod.fst hrest

/-- The lexer, which has read `read` of the body and has `cs` left, makes tokens of it where
there is nothing to skip. -/
theorem Lexical.listFrom_comesFrom {body : List Char} (read cs : List Char)
    (hbody : body = read ++ cs) :
    ∀ t ∈ Token.listFrom (Reading.start.through read) cs,
      ∃ before left, t.ComesFrom body before left ∧
        ∀ c ∈ left.head?, isInsignificant c = false := by
  induction hn : cs.length using Nat.strong_induction_on generalizing read cs with
  | _ n ih =>
    have happ := splitIgnored_append false cs
    cases hsplit : (splitIgnored false cs).2 with
    | nil =>
      rw [listFrom_end hsplit, ← Reading.through_append, ← hbody]
      intro t ht
      obtain rfl := List.mem_singleton.1 ht
      exact ⟨body, [], .ending, by simp⟩
    | cons c more =>
      have hshort := Scan.length_next_rest_lt c more
      have hlen := length_splitIgnored_le false cs
      have hnext := Scan.next_append c more
      have hbare := isInsignificant_of_rest hsplit
      rw [hsplit] at happ hlen
      rw [listFrom_cons hsplit, ← Reading.through_append, ← Reading.through_append]
      generalize (splitIgnored false cs).1 = gap at happ
      have hstart : body = (read ++ gap) ++ c :: more := by
        rw [hbody, List.append_assoc, happ]
      have hstop : body = (read ++ gap ++ (Scan.next c more).text) ++
          (Scan.next c more).rest := by
        rw [hstart, List.append_assoc (read ++ gap), hnext]
      exact List.forall_mem_cons.2 ⟨⟨_, _, .unit hstart, by simpa using hbare⟩,
        ih _ (by omega) _ _ hstop rfl⟩

theorem tokenize_origin (body : String) :
    ∀ t ∈ tokenize body, ∃ before left, t.ComesFrom body.toList before left ∧
      ∀ c ∈ left.head?, isInsignificant c = false :=
  Lexical.listFrom_comesFrom [] body.toList rfl

theorem tokenize_comesFrom (body : String) :
    ∀ t ∈ tokenize body, ∃ before left, t.ComesFrom body.toList before left := by
  intro t ht
  obtain ⟨before, left, origin, -⟩ := tokenize_origin body t ht
  exact ⟨before, left, origin⟩

namespace Token.ComesFrom
variable {body before left : List Char} {t : Token}

theorem body_eq (h : t.ComesFrom body before left) : body = before ++ left := by
  cases h with
  | unit hbody => exact hbody
  | ending => exact (List.append_nil body).symm

theorem start_eq (h : t.ComesFrom body before left) : t.span.start = .after before := by
  cases h <;> rfl

/-- The token stops after some of what was left. -/
theorem exists_stop (h : t.ComesFrom body before left) :
    ∃ text rest, left = text ++ rest ∧ t.span.stop = .after (before ++ text) := by
  cases h with
  | @unit _ c more hbody =>
    refine ⟨_, _, (Scan.next_append c more).symm, ?_⟩
    rw [Position.after, Reading.through_append]
    rfl
  | ending => exact ⟨[], [], rfl, by rw [List.append_nil]; rfl⟩

end Token.ComesFrom

end QueryDoc
