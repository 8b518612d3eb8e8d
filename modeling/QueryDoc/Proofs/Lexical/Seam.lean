import QueryDoc.Proofs.Lexical.Advance
import QueryDoc.Proofs.StringLiteral.Block

/-!
# Texts put together

What a text lexes to in front of another text. A unit ends where it should if
the text after it does not go on with it, which is one condition for all units:
no character of a name, no dot and no quote comes next. Under it the tokens of
two texts are those of the first and those of the second. Behind a punctuator
anything may follow, and insignificant characters may stand anywhere.
-/
namespace QueryDoc.Lexical

/-! ## Skipping -/

/-- What is left after skipping starts with nothing to skip. -/
theorem splitIgnored_rest (inComment : Bool) (cs : List Char) :
    splitIgnored false (splitIgnored inComment cs).2 = ([], (splitIgnored inComment cs).2) := by
  fun_induction splitIgnored inComment cs <;> simp_all +zetaDelta [splitIgnored]

/-- Skipping ends at the same character if the text after it is another. -/
theorem splitIgnored_cut {inComment : Bool} {cs more : List Char} {c : Char}
    (h : (splitIgnored inComment cs).2 = c :: more) (other : List Char) :
    splitIgnored inComment ((splitIgnored inComment cs).1 ++ c :: other) =
      ((splitIgnored inComment cs).1, c :: other) := by
  fun_induction splitIgnored inComment cs <;> simp_all +zetaDelta [splitIgnored]

/-- Lexing the characters, wherever they stand, gives tokens of these kinds. -/
def LexesTo (cs : List Char) (kinds : List TokenKind) : Prop :=
  ∀ r, (Token.listFrom r cs).map Token.kind = kinds ++ [.endOfInput]

section LexesTo
variable {c : Char} {cs : List Char} {kinds : List TokenKind}

theorem LexesTo.nil : LexesTo [] [] := fun _ => listFrom_nil rfl

theorem LexesTo.tokenize {text : String} (h : LexesTo text.toList kinds) :
    (QueryDoc.tokenize text).map Token.kind = kinds ++ [.endOfInput] := h .start

/-- What is skipped in front of a text changes none of its tokens. -/
theorem LexesTo.skip (gap : List Char) (hsplit : splitIgnored false (gap ++ cs) =
    (gap ++ (splitIgnored false cs).1, (splitIgnored false cs).2)) (h : LexesTo cs kinds) :
    LexesTo (gap ++ cs) kinds := by
  intro r
  have hr := h (r.through gap)
  cases hrest : (splitIgnored false cs).2 with
  | nil =>
    rw [listFrom_nil hrest] at hr
    rw [listFrom_nil (by rw [hsplit, hrest])]
    exact hr
  | cons d ds =>
    rw [listFrom_cons hrest, ← Reading.through_append] at hr
    rw [listFrom_cons (by rw [hsplit, hrest]), hsplit]
    exact hr

theorem LexesTo.blank (hc : isInsignificant c = true) (h : LexesTo cs kinds) :
    LexesTo (c :: cs) kinds :=
  .skip [c] (by simp only [List.singleton_append, splitIgnored, hc, if_true]) h

/-- A line feed ends what may be skipped at the end of a text, a comment too. -/
theorem splitIgnored_lineFeed {inComment : Bool} {gap : List Char}
    (h : (splitIgnored inComment gap).2 = []) (rest : List Char) :
    splitIgnored inComment (gap ++ '\n' :: rest) =
      (gap ++ '\n' :: (splitIgnored false rest).1, (splitIgnored false rest).2) := by
  fun_induction splitIgnored inComment gap with
  | case1 inComment => cases inComment <;> rfl
  | case2 c cs r ih => simp only [List.cons_append, splitIgnored, ih h]
  | case3 c cs hc r ih => simp only [List.cons_append, splitIgnored, hc, if_true, ih h]
  | case4 cs r hc ih =>
    rw [List.cons_append, splitIgnored, if_neg hc, if_pos rfl, ih h]
    rfl
  | case5 => cases h

/-- A text on the next line, behind what may be skipped. -/
theorem LexesTo.lineFeed {gap : List Char} (hgap : (splitIgnored false gap).2 = [])
    (h : LexesTo cs kinds) : LexesTo (gap ++ '\n' :: cs) kinds := by
  have happ (rest : List Char) : gap ++ '\n' :: rest = (gap ++ ['\n']) ++ rest := by simp
  rw [happ]
  refine .skip _ ?_ h
  rw [← happ, ← happ]
  exact splitIgnored_lineFeed hgap cs

/-- One unit in front, given what is scanned there. -/
theorem LexesTo.unit {lexeme : Lexeme} {text rest : List Char} {kind : TokenKind}
    (hc : isInsignificant c = false) (hhash : c ≠ '#')
    (hnext : Scan.next c cs = ⟨lexeme, text, rest⟩)
    (hkind : ∀ p, lexeme.toKind p text = kind) (h : LexesTo rest kinds) :
    LexesTo (c :: cs) (kind :: kinds) := by
  intro r
  have hsplit : splitIgnored false (c :: cs) = ([], c :: cs) := by
    simp only [splitIgnored, hc, Bool.false_eq_true, if_false, if_neg hhash]
  rw [listFrom_cons (by rw [hsplit]), hsplit, hnext]
  simp only [List.map_cons, Token.ofScan, hkind, List.cons_append]
  rw [h]

end LexesTo

/-! ## Texts -/

/-- What could go on with a name, a number or an empty string. -/
def extendsUnit (c : Char) : Bool := isNameContinue c || c == '.' || c == '"'

/-- Nothing at the start of the text could go on with a unit in front of it. -/
def Parted (text : String) : Prop := StartsOutside extendsUnit text.toList

/-- In front of any text that is parted from it the text gives these tokens. -/
def Emits (text : String) (kinds : List TokenKind) : Prop :=
  ∀ rest more, StartsOutside extendsUnit rest → LexesTo rest more →
    LexesTo (text.toList ++ rest) (kinds ++ more)

/-- In front of any text whatever the text gives these tokens, for it ends with a
punctuator or an insignificant character. -/
def Feeds (text : String) (kinds : List TokenKind) : Prop :=
  ∀ rest more, LexesTo rest more → LexesTo (text.toList ++ rest) (kinds ++ more)

theorem startsOutside_append {p : Char → Bool} {cs ds : List Char} (hc : StartsOutside p cs)
    (hd : StartsOutside p ds) : StartsOutside p (cs ++ ds) := by
  cases cs with
  | nil => exact hd
  | cons c cs => exact hc

theorem StartsOutside.mono {p q : Char → Bool} {cs : List Char} (h : StartsOutside p cs)
    (hpq : ∀ c, p c = false → q c = false) : StartsOutside q cs :=
  fun c hc => hpq c (h c hc)

section Texts
variable {a b : String} {ks ls : List TokenKind}

theorem Parted.empty : Parted "" := fun _ hc => absurd hc (by simp)

theorem Parted.append_of_ne (ha : Parted a) (hne : a ≠ "") (b : String) : Parted (a ++ b) := by
  rw [Parted, String.toList_append]
  cases hcons : a.toList with
  | nil => exact absurd (String.toList_eq_nil_iff.1 hcons) hne
  | cons c cs =>
    rw [Parted, hcons] at ha
    exact ha

theorem Emits.empty : Emits "" [] := fun _ _ _ h => h

theorem Feeds.emits (h : Feeds a ks) : Emits a ks := fun rest more _ hmore => h rest more hmore

theorem Emits.append (ha : Emits a ks) (hb : Emits b ls) (hparted : Parted b) :
    Emits (a ++ b) (ks ++ ls) := by
  intro rest more hrest hmore
  rw [String.toList_append, List.append_assoc, List.append_assoc]
  exact ha _ _ (startsOutside_append hparted hrest) (hb rest more hrest hmore)

theorem Emits.feeds (ha : Emits a ks) (hb : Feeds b ls) (hparted : Parted b) (hne : b ≠ "") :
    Feeds (a ++ b) (ks ++ ls) := by
  intro rest more hmore
  have hrest := hparted.append_of_ne hne (String.ofList rest)
  rw [Parted, String.toList_append, String.toList_ofList] at hrest
  rw [String.toList_append, List.append_assoc, List.append_assoc]
  exact ha _ _ hrest (hb rest more hmore)

theorem Feeds.append (ha : Feeds a ks) (hb : Emits b ls) : Emits (a ++ b) (ks ++ ls) := by
  intro rest more hrest hmore
  rw [String.toList_append, List.append_assoc, List.append_assoc]
  exact ha _ _ (hb rest more hrest hmore)

theorem Feeds.feeds (ha : Feeds a ks) (hb : Feeds b ls) : Feeds (a ++ b) (ks ++ ls) := by
  intro rest more hmore
  rw [String.toList_append, List.append_assoc, List.append_assoc]
  exact ha _ _ (hb rest more hmore)

theorem Emits.tokenize (h : Emits a ks) :
    (QueryDoc.tokenize a).map Token.kind = ks ++ [.endOfInput] := by
  have hall := h [] [] (fun _ hc => absurd hc (by simp)) LexesTo.nil
  rw [List.append_nil, List.append_nil] at hall
  exact hall.tokenize

end Texts

/-! ## Insignificant text -/

def IsInsignificant (blanks : String) : Prop := ∀ c ∈ blanks.toList, isInsignificant c = true

section Gaps
variable {blanks : String}

theorem IsInsignificant.parted (h : IsInsignificant blanks) : Parted blanks := by
  intro c hc
  have hmem := h c (List.mem_of_mem_head? hc)
  simp only [isInsignificant, isSpacing, Bool.or_eq_true, beq_iff_eq] at hmem
  rcases hmem with (((((rfl | rfl) | rfl) | rfl) | rfl) | rfl) <;> decide

theorem Feeds.gap (hgap : IsInsignificant blanks) : Feeds blanks [] := by
  intro rest more hmore
  have hskip : ∀ cs : List Char, (∀ c ∈ cs, isInsignificant c = true) →
      LexesTo (cs ++ rest) more := by
    intro cs hcs
    induction cs with
    | nil => exact hmore
    | cons c cs ih =>
      obtain ⟨hc, hcs⟩ := List.forall_mem_cons.1 hcs
      exact .blank hc (ih hcs)
  exact hskip blanks.toList hgap

/-- Insignificant characters part a text from the next. -/
theorem Emits.gap {a : String} {ks : List TokenKind} (ha : Emits a ks)
    (hgap : IsInsignificant blanks) (hne : blanks ≠ "") : Feeds (a ++ blanks) ks := by
  have h := ha.feeds (.gap hgap) hgap.parted hne
  rwa [List.append_nil] at h

end Gaps

/-! ## Punctuators -/

theorem LexesTo.punctuator (p : Punctuator) {rest : List Char} {kinds : List TokenKind}
    (h : LexesTo rest kinds) : LexesTo (p.text.toList ++ rest) (.punctuator p :: kinds) := by
  cases p with
  | ellipsis => exact .unit (by decide) (by decide) (by rfl) (fun _ => rfl) h
  | _ => exact .unit (by decide) (by decide) (by rfl) (fun _ => rfl) h

theorem Feeds.punctuator (p : Punctuator) : Feeds p.text [.punctuator p] :=
  fun _ _ hmore => .punctuator p hmore

theorem parted_punctuator {p : Punctuator} (h : p ≠ .ellipsis) : Parted p.text := by
  cases p with
  | ellipsis => exact absurd rfl h
  | _ => exact fun c hc => by obtain rfl := Option.some.inj hc; decide

/-- A closing punctuator ends what it stands behind. -/
theorem Emits.close {a : String} {ks : List TokenKind} (ha : Emits a ks) {p : Punctuator}
    (h : p ≠ .ellipsis) : Feeds (a ++ p.text) (ks ++ [.punctuator p]) := by
  refine ha.feeds (.punctuator p) (parted_punctuator h) ?_
  cases p <;> decide

/-! ## Names -/

/-- The kind of the token that a name forms. -/
def nameKind (text : String) : TokenKind := Lexeme.name.toKind .zero text.toList

theorem nameText_nameKind (text : String) : (nameKind text).nameText? = some text := by
  simp only [nameKind, Lexeme.toKind]
  split
  · rename_i h
    rw [String.toList_inj.1 h]
    rfl
  · split
    · rename_i h
      rw [String.toList_inj.1 h]
      rfl
    · split
      · rename_i h
        rw [String.toList_inj.1 h]
        rfl
      · rw [String.ofList_toList]
        rfl

theorem nameKind_eq {text : String} (h : text.toList ∉ literalNames) :
    nameKind text = .name text := by
  simp only [literalNames, List.mem_cons, List.not_mem_nil, or_false, not_or] at h
  simp only [nameKind, Lexeme.toKind, h.1, h.2.1, h.2.2, if_false, String.ofList_toList]

/-- The longest run in a class ends where a character outside it comes. -/
theorem takeWhile_append {p : Char → Bool} {cs rest : List Char} (hcs : ∀ c ∈ cs, p c = true)
    (hrest : StartsOutside p rest) :
    (cs ++ rest).takeWhile p = cs ∧ (cs ++ rest).dropWhile p = rest := by
  rw [List.takeWhile_append_of_pos hcs, List.dropWhile_append_of_pos hcs]
  cases rest with
  | nil => simp
  | cons c rest => simp [hrest c rfl]

theorem Emits.name {text : String} (h : IsName text.toList) : Emits text [nameKind text] := by
  intro rest more hrest hmore
  obtain ⟨c, cs, htext, hc, hcs⟩ := h
  have hall : ∀ d ∈ text.toList, isNameContinue d = true := by
    rw [htext]
    exact List.forall_mem_cons.2 ⟨isNameContinue_of_start hc, hcs⟩
  have hout : StartsOutside isNameContinue rest :=
    hrest.mono fun d hd => by simp only [extendsUnit, Bool.or_eq_false_iff] at hd; exact hd.1.1
  obtain ⟨hblank, hhash, hnext⟩ := next_name (cs ++ rest) hc
  have hscan : Scan.name (text.toList ++ rest) = ⟨.name, text.toList, rest⟩ := by
    rw [Scan.name, (takeWhile_append hall hout).1, (takeWhile_append hall hout).2]
  rw [htext] at hscan ⊢
  exact .unit hblank hhash (hnext.trans hscan) (fun _ => by rw [nameKind, htext]; rfl) hmore

/-! ## Numbers -/

theorem isNameStart_of_digit {c : Char} (h : c.isDigit = true) : isNameStart c = false := by
  have hunderscore : c ≠ '_' := by
    rintro rfl
    cases h
  simp only [Char.isDigit, Bool.and_eq_true, decide_eq_true_eq] at h
  have hdigit : 48 ≤ c.val.toNat ∧ c.val.toNat ≤ 57 := h
  have hupper : c.isUpper = false := by
    apply decide_eq_false
    change ¬ (65 ≤ c.val.toNat ∧ c.val.toNat ≤ 90)
    omega
  have hlower : c.isLower = false := by
    refine Bool.and_eq_false_iff.2 (.inl (decide_eq_false ?_))
    change ¬ 97 ≤ c.val.toNat
    omega
  have halpha : c.isAlpha = false := Bool.or_eq_false_iff.2 ⟨hupper, hlower⟩
  exact Bool.or_eq_false_iff.2 ⟨halpha, beq_eq_false_iff_ne.2 hunderscore⟩

section Numbers
variable {sign digits rest : List Char}

/-- What does not go on with a unit does not go on with a number. -/
theorem extendsUnit_number {c : Char} (h : extendsUnit c = false) :
    c.isDigit = false ∧ c ≠ '.' ∧ c ≠ 'e' ∧ c ≠ 'E' := by
  simp only [extendsUnit, isNameContinue, Char.isAlphanum, Bool.or_eq_false_iff,
    beq_eq_false_iff_ne] at h
  obtain ⟨⟨⟨⟨halpha, hdigit⟩, -⟩, hdot⟩, -⟩ := h
  refine ⟨hdigit, hdot, ?_, ?_⟩
  · rintro rfl
    cases halpha
  · rintro rfl
    cases halpha

theorem startsWithDigit_append (h : IsDigits digits) (rest : List Char) :
    Scan.startsWithDigit (digits ++ rest) = true := by
  obtain ⟨hne, hall⟩ := h
  cases digits with
  | nil => exact absurd rfl hne
  | cons d ds => exact hall d List.mem_cons_self

theorem next_number (rest : List Char) (hsign : sign = [] ∨ sign = ['-']) (h : IsDigits digits) :
    ∃ c cs, sign ++ (digits ++ rest) = c :: cs ∧ isInsignificant c = false ∧ c ≠ '#' ∧
      Scan.next c cs = Scan.number sign (digits ++ rest) := by
  rcases hsign with rfl | rfl
  · obtain ⟨hne, hall⟩ := h
    cases digits with
    | nil => exact absurd rfl hne
    | cons d ds =>
      have hd := hall d List.mem_cons_self
      have hne : ∀ e, e.isDigit = false → d ≠ e := by
        rintro e he rfl
        rw [hd] at he
        cases he
      have hp : Scan.punctuator? d = none := by
        unfold Scan.punctuator?
        split <;> first | rfl | cases hd
      have hstart := isNameStart_of_digit hd
      refine ⟨d, ds ++ rest, rfl, ?_, hne _ (by decide), ?_⟩
      · simp [isInsignificant, isSpacing, hne ' ' (by decide), hne '\t' (by decide),
          hne '\uFEFF' (by decide), hne '\n' (by decide), hne '\r' (by decide),
          hne ',' (by decide)]
      · simp only [Scan.next, hp, if_neg (hne '.' (by decide)), if_neg (hne '"' (by decide)),
          hstart, if_neg (hne '-' (by decide)), hd, if_true, Bool.false_eq_true, if_false]
        rfl
  · exact ⟨'-', digits ++ rest, rfl, by decide, by decide, rfl⟩

theorem number_append_digits (h : IsDigits digits) (hrest : StartsOutside Char.isDigit rest) :
    Scan.number sign (digits ++ rest) = Scan.fraction (sign ++ digits) rest := by
  rw [Scan.number, if_pos (startsWithDigit_append h rest), (takeWhile_append h.2 hrest).1,
    (takeWhile_append h.2 hrest).2]

/-- Where no exponent follows a number ends. -/
theorem exponent_none (lexeme : Lexeme) (text : List Char)
    (hrest : StartsOutside (fun c => c == 'e' || c == 'E') rest) :
    Scan.exponent lexeme text rest = ⟨lexeme, text, rest⟩ := by
  cases rest with
  | nil => rfl
  | cons c rest =>
    have hc := hrest c rfl
    simp only [Bool.or_eq_false_iff, beq_eq_false_iff_ne] at hc
    simp only [Scan.exponent, hc.1, hc.2, or_self, if_false]

theorem exponent_append_exponent (lexeme : Lexeme) (text : List Char) {x : List Char}
    (hx : IsExponent x) (hrest : StartsOutside Char.isDigit rest) :
    Scan.exponent lexeme text (x ++ rest) = ⟨.float, text ++ x, rest⟩ := by
  obtain ⟨e, sign, ds, rfl, he, hsign, hds⟩ := hx
  have hsplit : Scan.splitSign (sign ++ (ds ++ rest)) = (sign, ds ++ rest) := by
    rcases hsign with rfl | rfl | rfl
    · obtain ⟨hne, hall⟩ := hds
      cases ds with
      | nil => exact absurd rfl hne
      | cons d ds =>
        have hd := hall d List.mem_cons_self
        have hplain : ¬ (d = '+' ∨ d = '-') := by
          rintro (rfl | rfl) <;> cases hd
        simp [Scan.splitSign, hplain]
    · rfl
    · rfl
  rw [List.cons_append, List.append_assoc]
  simp only [Scan.exponent, he, if_true, hsplit, startsWithDigit_append hds rest,
    (takeWhile_append hds.2 hrest).1, (takeWhile_append hds.2 hrest).2, List.append_assoc,
    List.cons_append]

/-- Without a fraction or an exponent a number is an integer. -/
theorem fraction_none (text : List Char) (hrest : StartsOutside extendsUnit rest) :
    Scan.fraction text rest = ⟨.int, text, rest⟩ := by
  have hexponent : StartsOutside (fun c => c == 'e' || c == 'E') rest :=
    hrest.mono fun c hc => by simp [extendsUnit_number hc]
  cases rest with
  | nil => rfl
  | cons c rest =>
    have hdot := (extendsUnit_number (hrest c rfl)).2.1
    rw [Scan.fraction]
    · exact exponent_none _ _ hexponent
    · intro ds heq
      exact hdot (List.cons.inj heq).1

/-- A fraction, an exponent or both make a number a float. -/
theorem fraction_append {fraction exponent : List Char} (text : List Char)
    (hfraction : fraction = [] ∨ IsFraction fraction)
    (hexponent : exponent = [] ∨ IsExponent exponent)
    (hne : ¬ (fraction = [] ∧ exponent = [])) (hrest : StartsOutside extendsUnit rest) :
    Scan.fraction text (fraction ++ (exponent ++ rest)) =
      ⟨.float, text ++ (fraction ++ exponent), rest⟩ := by
  have hdigit : StartsOutside Char.isDigit rest :=
    hrest.mono fun c hc => (extendsUnit_number hc).1
  rcases hfraction with rfl | ⟨digits, rfl, hdigits⟩
  · have hx := hexponent.resolve_left fun h => hne ⟨rfl, h⟩
    have hend := exponent_append_exponent .int text hx hdigit
    obtain ⟨e, sign, ds, rfl, he, -⟩ := hx
    rw [List.nil_append, List.cons_append, Scan.fraction]
    · exact hend
    · intro ds heq
      obtain rfl := (List.cons.inj heq).1
      rcases he with he | he <;> exact absurd he (by decide)
  · have hstop : StartsOutside Char.isDigit (exponent ++ rest) := by
      rcases hexponent with rfl | ⟨e, sign, ds, rfl, he, -⟩
      · exact hdigit
      · intro c hc
        obtain rfl := Option.some.inj hc
        rcases he with rfl | rfl <;> decide
    rw [List.cons_append, Scan.fraction, if_pos (startsWithDigit_append hdigits _),
      (takeWhile_append hdigits.2 hstop).1, (takeWhile_append hdigits.2 hstop).2]
    rcases hexponent with rfl | hx
    · rw [List.append_nil, List.nil_append]
      exact exponent_none _ _ (hrest.mono fun c hc => by simp [extendsUnit_number hc])
    · rw [exponent_append_exponent _ _ hx hdigit]
      simp

end Numbers

theorem Emits.int {text : String} (h : IsInteger text.toList) : Emits text [.int text] := by
  intro rest more hrest hmore
  obtain ⟨sign, digits, htext, hsign, hdigits⟩ := h
  have hdigit : StartsOutside Char.isDigit rest :=
    hrest.mono fun c hc => (extendsUnit_number hc).1
  obtain ⟨c, cs, hcs, hblank, hhash, hnext⟩ := next_number rest hsign hdigits
  rw [number_append_digits hdigits hdigit, fraction_none _ hrest] at hnext
  rw [htext, List.append_assoc, hcs]
  exact .unit hblank hhash hnext (fun _ => by rw [← htext]; simp [Lexeme.toKind]) hmore

theorem Emits.float {text : String} (h : IsFloat text.toList) : Emits text [.float text] := by
  intro rest more hrest hmore
  obtain ⟨whole, fraction, exponent, htext, hwhole, hfraction, hexponent, hne⟩ := h
  obtain ⟨sign, digits, rfl, hsign, hdigits⟩ := hwhole
  have hstop : StartsOutside Char.isDigit (fraction ++ (exponent ++ rest)) := by
    rcases hfraction with rfl | ⟨ds, rfl, -⟩
    · obtain ⟨e, s, ds, rfl, he, -⟩ := hexponent.resolve_left fun h => hne ⟨rfl, h⟩
      intro c hc
      obtain rfl := Option.some.inj hc
      rcases he with rfl | rfl <;> decide
    · intro c hc
      obtain rfl := Option.some.inj hc
      decide
  obtain ⟨c, cs, hcs, hblank, hhash, hnext⟩ :=
    next_number (fraction ++ (exponent ++ rest)) hsign hdigits
  rw [number_append_digits hdigits hstop,
    fraction_append _ hfraction hexponent hne hrest] at hnext
  have hall : text.toList ++ rest = c :: cs := by
    rw [htext, ← hcs]
    simp
  rw [hall]
  refine .unit hblank hhash hnext (fun _ => ?_) hmore
  have htext' : sign ++ digits ++ (fraction ++ exponent) = text.toList := by
    rw [htext, List.append_assoc (sign ++ digits)]
  rw [htext', Lexeme.toKind, String.ofList_toList]

/-! ## Strings -/

theorem Emits.quote (cs : List Char) :
    Emits (String.ofList (StringLiteral.quote cs)) [.string (String.ofList (StringLiteral.quote cs))] := by
  intro rest more hrest hmore
  have hquote : rest.head? ≠ some '"' := by
    intro h
    have hout := hrest '"' h
    cases hout
  have hall : (String.ofList (StringLiteral.quote cs)).toList ++ rest =
      '"' :: (cs.flatMap StringLiteral.escapeChar ++ '"' :: rest) := by
    simp [StringLiteral.quote]
  rw [hall]
  exact .unit (by decide) (by decide) (Scan.next_quote cs rest hquote) (fun _ => rfl) hmore

theorem Emits.blockLiteral (k : Nat) (cs : List Char) :
    Emits (String.ofList (StringLiteral.blockLiteral k cs))
      [.string (String.ofList (StringLiteral.blockLiteral k cs))] := by
  intro rest more _ hmore
  obtain ⟨ds, hds, hnext⟩ := Scan.next_blockLiteral k cs rest
  rw [String.toList_ofList, hds]
  exact .unit (by decide) (by decide) hnext (fun _ => rfl) hmore

end QueryDoc.Lexical
