import QueryDoc.Proofs.Lexical.Partition
import QueryDoc.Proofs.Lexical.Seam

/-!
# Units before another text

A scanner looks ahead to see how far a unit goes. If something else stands behind
the unit, it is recognised again as long as what it looks at there does not go on
with it. This is so if the other text is empty, if it starts as the text before
did, in particular if that text was only cut somewhere, and if it starts with a
character that goes on with no unit, as all insignificant text does.
-/
namespace QueryDoc

/-- The unit with other text after it. -/
def Scan.before (s : Scan) (rest : List Char) : Scan := { s with rest := rest }

/-- Some text that was recognised. -/
def Scan.IsUnit (s : Scan) : Prop := ∀ f, s.lexeme ≠ .fault f

instance (s : Scan) : Decidable s.IsUnit :=
  match h : s.lexeme with
  | .fault f => isFalse fun unit => unit f h
  | .punctuator _ | .name | .int | .float | .string => isTrue fun _ hf => by rw [h] at hf; cases hf

namespace Lexical

variable {cs keep : List Char}

/-- Where a unit ends in front of `rest` it ends in front of `keep`, which is empty,
starts as `rest` does, or starts with what goes on with no unit. -/
def Harmless (keep rest : List Char) : Prop :=
  ∀ c ∈ keep.head?, c ∈ rest.head? ∨ extendsUnit c = false

theorem Harmless.nil (cs : List Char) : Harmless [] cs := fun _ hc => absurd hc (by simp)

theorem Harmless.start (h : keep <+: cs) : Harmless keep cs := by
  obtain ⟨ds, rfl⟩ := h
  intro c hc
  exact .inl (by rw [List.head?_append, Option.mem_def.1 hc]; rfl)

theorem Harmless.of_startsOutside (h : StartsOutside extendsUnit keep) : Harmless keep cs :=
  fun c hc => .inr (h c hc)

/-- With the same text in front of both. -/
theorem Harmless.append (x : List Char) (h : Harmless keep cs) :
    Harmless (x ++ keep) (x ++ cs) := by
  cases x with
  | nil => exact h
  | cons d x => exact fun c hc => .inl hc

theorem StartsOutside.harmless {p : Char → Bool} (h : StartsOutside p cs) (hk : Harmless keep cs)
    (hp : ∀ c, extendsUnit c = false → p c = false) : StartsOutside p keep :=
  fun c hc => (hk c hc).elim (h c) (hp c)

theorem Harmless.eq_cons {c : Char} {ds : List Char} (h : Harmless (c :: ds) cs)
    (hc : extendsUnit c = true) : ∃ es, cs = c :: es := by
  rcases h c rfl with hhead | hout
  · exact List.head?_eq_some_iff.1 hhead
  · rw [hc] at hout
    cases hout

theorem not_isNameContinue {c : Char} (h : extendsUnit c = false) : isNameContinue c = false := by
  simp only [extendsUnit, Bool.or_eq_false_iff] at h
  exact h.1.1

theorem not_isDigit {c : Char} (h : extendsUnit c = false) : c.isDigit = false :=
  (extendsUnit_number h).1

/-- Only the notes of an error depend on where a unit stands. -/
theorem toKind_of_isUnit {s : Scan} (h : s.IsUnit) (p q : Position) :
    s.lexeme.toKind p s.text = s.lexeme.toKind q s.text := by
  cases hl : s.lexeme with
  | fault f => exact absurd hl (h f)
  | _ => rfl

/-! ## Scanners -/

/-- A unit of characters of a class ends as before. -/
theorem name_cut (hk : Harmless keep (Scan.name cs).rest) :
    Scan.name ((Scan.name cs).text ++ keep) = (Scan.name cs).before keep := by
  have hall : ∀ c ∈ cs.takeWhile isNameContinue, isNameContinue c = true :=
    fun c hc => List.mem_takeWhile_imp hc
  obtain ⟨htake, hdrop⟩ := takeWhile_append hall
    ((startsOutside_dropWhile isNameContinue cs).harmless hk fun _ => not_isNameContinue)
  simp only [Scan.name, Scan.before] at *
  rw [htake, hdrop]

theorem dots_lexeme (cs : List Char) :
    (Scan.dots cs).lexeme = .punctuator .ellipsis ∨ ∃ f, (Scan.dots cs).lexeme = .fault f := by
  unfold Scan.dots
  split
  · split
    · simp only
      split
      · exact .inl rfl
      · exact .inr ⟨_, rfl⟩
    · exact .inr ⟨_, rfl⟩
  · exact .inr ⟨_, rfl⟩

/-- Only three dots in a row are a unit. -/
theorem dots_cut (h : (Scan.dots cs).IsUnit) (keep : List Char) :
    ∃ ds, (Scan.dots cs).text = '.' :: ds ∧
      Scan.dots (ds ++ keep) = (Scan.dots cs).before keep := by
  have lexeme := (dots_lexeme cs).resolve_right fun ⟨f, hf⟩ => h f hf
  have text := dots_fits cs
  rw [lexeme] at text
  refine ⟨['.', '.'], text, ?_⟩
  rw [Scan.before, lexeme, text]
  rfl

theorem quoted_cut (h : (Scan.quoted cs).IsUnit) (keep : List Char) :
    Scan.quoted ((Scan.quoted cs).text ++ keep) = (Scan.quoted cs).before keep := by
  fun_induction Scan.quoted cs with
  | case1 => exact absurd rfl (h _)
  | case2 cs => rfl
  | case3 c cs hc ih =>
    have broken : Scan.quoted (c :: cs) = ⟨.fault .stringAtLineEnd, [], c :: cs⟩ := by
      rw [Scan.quoted, if_pos hc]
      · rintro rfl
        cases hc
      · rintro d ds rfl
        cases hc
    rw [broken] at h
    exact absurd rfl (h _)
  | case4 c cs hc ih =>
    simp only [Scan.push_text, List.cons_append, Scan.quoted, if_neg hc]
    rw [ih h]
    rfl
  | case5 => exact absurd rfl (h _)
  | case6 c cs hquote hslash hc ih =>
    simp only [Scan.push_text, List.cons_append]
    rw [Scan.quoted, if_neg hc, ih h]
    · rfl
    · exact hquote
    · intro d ds hd hds
      cases cs with
      | nil => exact absurd rfl (h _)
      | cons e es => exact hslash e es hd rfl

theorem three_le_block (h : (Scan.block cs).IsUnit) : 3 ≤ (Scan.block cs).text.length := by
  fun_induction Scan.block cs with
  | case1 => exact absurd rfl (h _)
  | case2 cs ih => simp only [Scan.push_text, List.length_cons]; omega
  | case3 cs => exact Nat.le_refl 3
  | case4 c cs hescape hend ih =>
    have := ih h
    simp only [Scan.push_text, List.length_cons]
    omega

/-- At least three characters of a block string come from the text itself. -/
theorem block_begins (h : (Scan.block cs).IsUnit) {a b c : Char} {ds : List Char}
    (heq : (Scan.block cs).text ++ keep = a :: b :: c :: ds) : ∃ es, cs = a :: b :: c :: es := by
  have hlength := three_le_block h
  have happ := Scan.block_append cs
  match htext : (Scan.block cs).text, hlength with
  | a' :: b' :: c' :: es, _ =>
    rw [htext] at heq happ
    simp only [List.cons_append, List.cons.injEq] at heq
    obtain ⟨rfl, rfl, rfl, -⟩ := heq
    exact ⟨_, happ.symm⟩

theorem block_cut (h : (Scan.block cs).IsUnit) (keep : List Char) :
    Scan.block ((Scan.block cs).text ++ keep) = (Scan.block cs).before keep := by
  fun_induction Scan.block cs with
  | case1 => exact absurd rfl (h _)
  | case2 cs ih =>
    simp only [Scan.push_text, List.cons_append, Scan.block]
    rw [ih h]
    rfl
  | case3 cs => rfl
  | case4 c cs hescape hend ih =>
    simp only [Scan.push_text, List.cons_append]
    rw [Scan.block, ih h]
    · rfl
    · intro ds hc hds
      obtain ⟨es, hes⟩ := block_begins h hds
      exact hescape es hc hes
    · intro ds hc hds
      cases ds with
      | nil =>
        have hlength := congrArg List.length hds
        have := three_le_block h
        simp only [List.length_append, List.length_cons, List.length_nil] at hlength
        omega
      | cons d ds =>
        obtain ⟨es, hes⟩ := block_begins h hds
        exact hend (d :: es) hc hes

theorem quoted_text_ne_nil (h : (Scan.quoted cs).IsUnit) : (Scan.quoted cs).text ≠ [] := by
  fun_cases Scan.quoted cs with
  | case1 => exact absurd rfl (h _)
  | case5 c cs hquote hslash hc =>
    simp only [Scan.quoted, hc, if_true] at h
    exact absurd rfl (h _)
  | _ => simp

/-- Only the empty string could be taken for the start of a block string. -/
theorem quoted_begins (h : (Scan.quoted cs).IsUnit) (hk : Harmless keep (Scan.quoted cs).rest)
    {ds : List Char} (heq : (Scan.quoted cs).text ++ keep = '"' :: '"' :: ds) :
    ∃ es, cs = '"' :: '"' :: es := by
  have happ := Scan.quoted_append cs
  match htext : (Scan.quoted cs).text, quoted_text_ne_nil h with
  | c :: text, _ =>
    rw [htext, List.cons_append] at happ heq
    obtain rfl := (List.cons.inj heq).1
    have hempty : Scan.quoted cs = ⟨.string, ['"'], text ++ (Scan.quoted cs).rest⟩ := by
      conv_lhs => rw [← happ, Scan.quoted]
    rw [hempty] at htext hk
    obtain rfl : [] = text := (List.cons.inj htext).2
    obtain rfl := (List.cons.inj heq).2
    obtain ⟨es, hes⟩ := hk.eq_cons (by decide)
    exact ⟨es, by rw [← happ]; exact congrArg _ hes⟩

theorem string_cut (h : (Scan.string cs).IsUnit) (hk : Harmless keep (Scan.string cs).rest) :
    ∃ ds, (Scan.string cs).text = '"' :: ds ∧
      Scan.string (ds ++ keep) = (Scan.string cs).before keep := by
  by_cases hopen : ∃ ds, cs = '"' :: '"' :: ds
  · obtain ⟨ds, rfl⟩ := hopen
    have cut : Scan.block ((Scan.block ds).text ++ keep) = (Scan.block ds).before keep :=
      block_cut h keep
    refine ⟨'"' :: '"' :: (Scan.block ds).text, rfl, ?_⟩
    simp only [List.cons_append, Scan.string, cut]
    rfl
  · have plain : ∀ es, (∀ ds, es ≠ '"' :: '"' :: ds) →
        Scan.string es = (Scan.quoted es).push '"' := by
      intro es hes
      rw [Scan.string]
      exact hes
    have hcs := plain cs fun ds hds => hopen ⟨ds, hds⟩
    rw [hcs] at h hk ⊢
    refine ⟨(Scan.quoted cs).text, rfl, ?_⟩
    rw [plain, quoted_cut h keep]
    · rfl
    · exact fun ds hds => hopen (quoted_begins h hk hds)

section Numbers
variable {sign text : List Char} {lexeme : Lexeme}

theorem exponent_cut (h : (Scan.exponent lexeme text cs).IsUnit)
    (hk : Harmless keep (Scan.exponent lexeme text cs).rest) :
    ∃ x, (Scan.exponent lexeme text cs).text = text ++ x ∧ Harmless (x ++ keep) cs ∧
      Scan.exponent lexeme text (x ++ keep) = (Scan.exponent lexeme text cs).before keep := by
  have happ := Scan.exponent_append lexeme text cs
  rcases exponent_cases lexeme text cs with ⟨x, rest, heq, hx, hrest⟩ | ⟨heq, hrest⟩ | ⟨f, hf⟩
  · rw [heq] at hk happ ⊢
    refine ⟨x, rfl, ?_, exponent_append_exponent lexeme text hx
      (hrest.harmless hk fun _ => not_isDigit)⟩
    rw [List.append_assoc, List.append_right_inj] at happ
    rw [← happ]
    exact hk.append x
  · rw [heq] at hk ⊢
    exact ⟨[], (List.append_nil text).symm, hk, exponent_none lexeme text
      (hrest.harmless hk fun c hc => by simp [extendsUnit_number hc])⟩
  · exact absurd hf (h f)

theorem fraction_cut (h : (Scan.fraction text cs).IsUnit)
    (hk : Harmless keep (Scan.fraction text cs).rest) :
    ∃ x, (Scan.fraction text cs).text = text ++ x ∧ Harmless (x ++ keep) cs ∧
      Scan.fraction text (x ++ keep) = (Scan.fraction text cs).before keep := by
  by_cases hpoint : ∃ ds, cs = '.' :: ds
  · obtain ⟨ds, rfl⟩ := hpoint
    by_cases hd : Scan.startsWithDigit ds = true
    · have digits := isDigits_takeWhile hd
      have outside := startsOutside_dropWhile Char.isDigit ds
      have heq : Scan.fraction text ('.' :: ds) =
          Scan.exponent .float (text ++ '.' :: ds.takeWhile Char.isDigit)
            (ds.dropWhile Char.isDigit) := if_pos hd
      rw [heq] at h hk ⊢
      obtain ⟨x, hx, short, cut⟩ := exponent_cut h hk
      obtain ⟨htake, hdrop⟩ :=
        takeWhile_append digits.2 (outside.harmless short fun _ => not_isDigit)
      refine ⟨'.' :: (ds.takeWhile Char.isDigit ++ x), ?_, ?_, ?_⟩
      · rw [hx, List.append_assoc, List.cons_append]
      · have whole := short.append ('.' :: ds.takeWhile Char.isDigit)
        rwa [List.cons_append, List.cons_append, List.takeWhile_append_dropWhile,
          ← List.append_assoc] at whole
      · rw [List.cons_append, List.append_assoc, Scan.fraction,
          if_pos (startsWithDigit_append digits _), htake, hdrop, cut]
    · exact absurd (congrArg Scan.lexeme (if_neg hd)) (h _)
  · have whole : ∀ es, Harmless es cs → Scan.fraction text es = Scan.exponent .int text es := by
      intro es hes
      rw [Scan.fraction]
      rintro ds rfl
      exact hpoint (hes.eq_cons (by decide))
    rw [whole cs (.start List.prefix_rfl)] at h hk ⊢
    obtain ⟨x, hx, short, cut⟩ := exponent_cut h hk
    exact ⟨x, hx, short, (whole _ short).trans cut⟩

theorem number_cut {sign : List Char} (h : (Scan.number sign cs).IsUnit)
    (hk : Harmless keep (Scan.number sign cs).rest) :
    ∃ ds, (Scan.number sign cs).text = sign ++ ds ∧ Scan.startsWithDigit ds = true ∧
      Scan.number sign (ds ++ keep) = (Scan.number sign cs).before keep := by
  by_cases hd : Scan.startsWithDigit cs = true
  · have digits := isDigits_takeWhile hd
    have outside := startsOutside_dropWhile Char.isDigit cs
    have heq : Scan.number sign cs = Scan.fraction (sign ++ cs.takeWhile Char.isDigit)
        (cs.dropWhile Char.isDigit) := if_pos hd
    rw [heq] at h hk ⊢
    obtain ⟨x, hx, short, cut⟩ := fraction_cut h hk
    refine ⟨cs.takeWhile Char.isDigit ++ x, ?_, startsWithDigit_append digits x, ?_⟩
    · rw [hx, List.append_assoc]
    · rw [List.append_assoc, number_append_digits digits
        (outside.harmless short fun _ => not_isDigit), cut]
  · have heq : Scan.number sign cs = ⟨.fault .loneMinus, sign, cs⟩ := if_neg hd
    rw [heq] at h
    exact absurd rfl (h _)

end Numbers

/-- A unit is recognised again in front of what does not go on with it. -/
theorem next_cut {c : Char} (h : (Scan.next c cs).IsUnit)
    (hk : Harmless keep (Scan.next c cs).rest) :
    ∃ ds, (Scan.next c cs).text = c :: ds ∧
      Scan.next c (ds ++ keep) = (Scan.next c cs).before keep := by
  -- the classes of first characters, in the order in which they are tried
  cases hp : Scan.punctuator? c with
  | some p =>
    have hnext : ∀ ds, Scan.next c ds = ⟨.punctuator p, [c], ds⟩ := fun ds => by
      simp only [Scan.next, hp]
    exact ⟨[], by rw [hnext], by rw [hnext, hnext]; rfl⟩
  | none =>
    by_cases hdot : c = '.'
    · subst hdot
      exact dots_cut h keep
    by_cases hquote : c = '"'
    · subst hquote
      exact string_cut h hk
    by_cases hname : isNameStart c = true
    · have hnext := fun ds => (next_name ds hname).2.2
      have hc := isNameContinue_of_start hname
      rw [hnext] at hk ⊢
      refine ⟨cs.takeWhile isNameContinue, ?_, ?_⟩
      · simp [Scan.name, hc]
      · rw [hnext, ← name_cut hk]
        simp [Scan.name, hc]
    by_cases hminus : c = '-'
    · subst hminus
      obtain ⟨ds, htext, -, cut⟩ := number_cut (show (Scan.number ['-'] cs).IsUnit from h) hk
      exact ⟨ds, htext, cut⟩
    have other : ∀ ds, Scan.next c ds =
        if c.isDigit then Scan.number [] (c :: ds) else ⟨.fault (.character c), [c], ds⟩ := by
      intro ds
      simp only [Scan.next, hp, if_neg hdot, if_neg hquote, if_neg hname, if_neg hminus]
    by_cases hd : c.isDigit = true
    · have hnext : ∀ ds, Scan.next c ds = Scan.number [] (c :: ds) := fun ds =>
        (other ds).trans (if_pos hd)
      rw [hnext] at h hk ⊢
      have happ := Scan.number_append [] (c :: cs)
      obtain ⟨ds, htext, hdigit, cut⟩ := number_cut h hk
      rw [htext] at happ
      cases ds with
      | nil => cases hdigit
      | cons d ds =>
        obtain ⟨rfl, -⟩ := List.cons.inj happ
        exact ⟨ds, htext, (hnext _).trans cut⟩
    · rw [other, if_neg hd] at h
      exact absurd rfl (h _)

end Lexical

end QueryDoc
