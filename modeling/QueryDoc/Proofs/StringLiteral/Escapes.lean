import QueryDoc.StringLiteral.Escape
import Mathlib.Data.List.TakeWhile

/-!
# What the content of a single-line string denotes

The content is cut into units, each of which stands for one character: characters other
than the backslash, short escapes, escapes with four hexadecimal digits, and pairs of
those that form a surrogate pair. `Denotes` says what a unit is without reading one. The
decoder takes one unit after the other, and at every place there is at most one to take,
so a content that can be cut into units can be cut in one way only, and one that cannot
is an error.
-/
namespace QueryDoc.StringLiteral

/-! ## Units -/

/-- What the character after a backslash makes of it, where that is all. -/
def shortEscapes : List (Char × Char) :=
  [('"', '"'), ('\\', '\\'), ('/', '/'), ('b', '\x08'), ('f', '\x0c'), ('n', '\n'), ('r', '\r'),
    ('t', '\t')]

def lowerDigits : List Char :=
  ['0', '1', '2', '3', '4', '5', '6', '7', '8', '9', 'a', 'b', 'c', 'd', 'e', 'f']

def upperDigits : List Char :=
  ['0', '1', '2', '3', '4', '5', '6', '7', '8', '9', 'A', 'B', 'C', 'D', 'E', 'F']

/-- The character is a hexadecimal digit of either case, and has the value. -/
def HexDigit (c : Char) (n : Nat) : Prop := lowerDigits[n]? = some c ∨ upperDigits[n]? = some c

instance (c : Char) (n : Nat) : Decidable (HexDigit c n) := inferInstanceAs (Decidable (_ ∨ _))

/-- Four hexadecimal digits and their number. -/
inductive Hex4 : List Char → Nat → Prop
  | mk {a b c d : Char} {i j k l : Nat} : HexDigit a i → HexDigit b j → HexDigit c k →
      HexDigit d l → Hex4 [a, b, c, d] (4096 * i + 256 * j + 16 * k + l)

/-- The text is a unit and stands for the character. -/
inductive Denotes : List Char → Char → Prop
  | plain {c : Char} : c ≠ '\\' → Denotes [c] c
  | short {e x : Char} : (e, x) ∈ shortEscapes → Denotes ['\\', e] x
  | unicode {digits : List Char} {x : Char} {n : Nat} : Hex4 digits n →
      ¬ (0xD800 ≤ n ∧ n ≤ 0xDFFF) → x.toNat = n → Denotes ('\\' :: 'u' :: digits) x
  | pair {digits digits' : List Char} {x : Char} {high low : Nat} :
      Hex4 digits high → 0xD800 ≤ high → high ≤ 0xDBFF →
      Hex4 digits' low → 0xDC00 ≤ low → low ≤ 0xDFFF →
      x.toNat = 0x10000 + (high - 0xD800) * 0x400 + (low - 0xDC00) →
      Denotes ('\\' :: 'u' :: (digits ++ '\\' :: 'u' :: digits')) x

/-- The text is made of the units, each of which stands beside its character. -/
structure Splits (cs : List Char) (units : List (List Char × Char)) : Prop where
  text : cs = units.flatMap Prod.fst
  denotes : ∀ u ∈ units, Denotes u.1 u.2

/-! ## Digits -/

theorem hexDigit_iff {c : Char} {n : Nat} :
    HexDigit c n ↔ isHexDigit c = true ∧ hexValue c = n := by
  constructor
  · have hlower : ∀ p ∈ lowerDigits.zipIdx, isHexDigit p.1 = true ∧ hexValue p.1 = p.2 := by decide
    have hupper : ∀ p ∈ upperDigits.zipIdx, isHexDigit p.1 = true ∧ hexValue p.1 = p.2 := by decide
    rintro (h | h)
    · exact hlower (c, n) (List.mk_mem_zipIdx_iff_getElem?.2 h)
    · exact hupper (c, n) (List.mk_mem_zipIdx_iff_getElem?.2 h)
  · have hascii : ∀ m < 128, isHexDigit (Char.ofNat m) = true →
        HexDigit (Char.ofNat m) (hexValue (Char.ofNat m)) := by decide
    rintro ⟨hc, rfl⟩
    have hlt : c.toNat < 128 := by
      simp only [isHexDigit, Char.isDigit, Char.le_def, Bool.or_eq_true, Bool.and_eq_true,
        decide_eq_true_eq, UInt32.le_iff_toNat_le] at hc
      rcases hc with (⟨-, h⟩ | ⟨-, h⟩) | ⟨-, h⟩ <;> exact Nat.lt_of_le_of_lt h (by decide)
    have h := hascii c.toNat hlt
    rw [Char.ofNat_toNat] at h
    exact h hc

/-- The number that the digits are read as. -/
theorem Hex4.number {digits : List Char} {n : Nat} (h : Hex4 digits n) :
    digits.length = 4 ∧ (∀ c ∈ digits, isHexDigit c = true) ∧ hexNumber digits = n := by
  obtain ⟨ha, hb, hc, hd⟩ := h
  obtain ⟨isA, rfl⟩ := hexDigit_iff.1 ha
  obtain ⟨isB, rfl⟩ := hexDigit_iff.1 hb
  obtain ⟨isC, rfl⟩ := hexDigit_iff.1 hc
  obtain ⟨isD, rfl⟩ := hexDigit_iff.1 hd
  refine ⟨rfl, by simp [isA, isB, isC, isD], ?_⟩
  simp only [hexNumber, List.foldl_cons, List.foldl_nil]
  omega

theorem hex4_hexNumber {digits : List Char} (hlength : digits.length = 4)
    (h : ∀ c ∈ digits, isHexDigit c = true) : Hex4 digits (hexNumber digits) := by
  match digits with
  | [a, b, c, d] =>
    have digit : ∀ x ∈ [a, b, c, d], HexDigit x (hexValue x) :=
      fun x hx => hexDigit_iff.2 ⟨h x hx, rfl⟩
    have hex := Hex4.mk (digit a (by simp)) (digit b (by simp)) (digit c (by simp))
      (digit d (by simp))
    rwa [← hex.number.2.2] at hex

theorem Hex4.lt {digits : List Char} {n : Nat} (h : Hex4 digits n) : n < 0x10000 := by
  have value_lt : ∀ {c : Char} {i : Nat}, HexDigit c i → i < 16 := by
    rintro c i (h | h) <;> exact (List.getElem?_eq_some_iff.1 h).1
  obtain ⟨ha, hb, hc, hd⟩ := h
  have := value_lt ha
  have := value_lt hb
  have := value_lt hc
  have := value_lt hd
  omega

theorem readHex4_eq_ok {cs rest : List Char} {n : Nat} :
    readHex4 cs = .ok (n, rest) ↔ ∃ digits, Hex4 digits n ∧ cs = digits ++ rest := by
  constructor
  · intro h
    simp only [readHex4] at h
    split at h
    · rename_i hlength
      obtain ⟨rfl, rfl⟩ := Prod.mk.inj (Except.ok.inj h)
      have htake : (cs.take 4).takeWhile isHexDigit = cs.take 4 :=
        (List.takeWhile_prefix isHexDigit).eq_of_length_le
          (by rw [hlength]; exact List.length_take_le 4 cs)
      refine ⟨_, hex4_hexNumber hlength fun c hc => List.mem_takeWhile_imp hc, ?_⟩
      rw [htake, List.take_append_drop]
    · cases h
  · rintro ⟨digits, hex, rfl⟩
    obtain ⟨hlength, hdigits, rfl⟩ := hex.number
    have htake : (digits ++ rest).take 4 = digits := List.take_left' hlength
    simp only [readHex4, htake, List.takeWhile_eq_self_iff.2 hdigits, hlength, if_true,
      List.drop_left' hlength]

/-! ## One unit -/

theorem shortEscape_eq_some {e x : Char} : shortEscape? e = some x ↔ (e, x) ∈ shortEscapes := by
  constructor
  · intro h
    unfold shortEscape? at h
    split at h <;> cases h <;> decide
  · intro h
    simp only [shortEscapes, List.mem_cons, Prod.mk.injEq, List.not_mem_nil, or_false] at h
    rcases h with ⟨rfl, rfl⟩ | ⟨rfl, rfl⟩ | ⟨rfl, rfl⟩ | ⟨rfl, rfl⟩ | ⟨rfl, rfl⟩ | ⟨rfl, rfl⟩ |
      ⟨rfl, rfl⟩ | ⟨rfl, rfl⟩ <;> rfl

theorem isHighSurrogate_iff {n : Nat} : isHighSurrogate n = true ↔ 0xD800 ≤ n ∧ n ≤ 0xDBFF := by
  simp [isHighSurrogate]

theorem isLowSurrogate_iff {n : Nat} : isLowSurrogate n = true ↔ 0xDC00 ≤ n ∧ n ≤ 0xDFFF := by
  simp [isLowSurrogate]

theorem toNat_ofNat {n : Nat} (h : n.isValidChar) : (Char.ofNat n).toNat = n := by
  rw [Char.ofNat, dif_pos h]
  rfl

/-- Four digits that are no surrogate, or two surrogates that are a pair, are one unit. -/
theorem readUnicode_eq_ok {cs rest : List Char} {x : Char} :
    readUnicode cs = .ok (x, rest) ↔
      ∃ text, Denotes ('\\' :: 'u' :: text) x ∧ cs = text ++ rest := by
  constructor
  · fun_cases readUnicode cs with
    | case3 high isHigh more low tail hmore isLow hcs =>
      intro h
      obtain ⟨rfl, rfl⟩ := Prod.mk.inj (Except.ok.inj h)
      obtain ⟨digits, hex, rfl⟩ := readHex4_eq_ok.1 hcs
      obtain ⟨digits', hex', rfl⟩ := readHex4_eq_ok.1 hmore
      obtain ⟨high₁, high₂⟩ := isHighSurrogate_iff.1 isHigh
      obtain ⟨low₁, low₂⟩ := isLowSurrogate_iff.1 isLow
      refine ⟨digits ++ '\\' :: 'u' :: digits', .pair hex high₁ high₂ hex' low₁ low₂ ?_, by simp⟩
      exact toNat_ofNat (.inr (by omega))
    | case7 unit tail hcs notHigh notLow =>
      intro h
      obtain ⟨rfl, rfl⟩ := Prod.mk.inj (Except.ok.inj h)
      obtain ⟨digits, hex, rfl⟩ := readHex4_eq_ok.1 hcs
      rw [isHighSurrogate_iff] at notHigh
      rw [isLowSurrogate_iff] at notLow
      have hlt := hex.lt
      have valid : unit.isValidChar := by
        unfold Nat.isValidChar
        omega
      exact ⟨digits, .unicode hex (by omega) (toNat_ofNat valid), rfl⟩
    | _ => exact fun h => nomatch h
  · rintro ⟨text, h, rfl⟩
    cases h with
    | short hmem => exact absurd hmem (by simp [shortEscapes])
    | @unicode _ _ n hex hnot hx =>
      subst hx
      have notHigh : isHighSurrogate x.toNat = false := by
        rw [Bool.eq_false_iff, ne_eq, isHighSurrogate_iff]
        omega
      have notLow : isLowSurrogate x.toNat = false := by
        rw [Bool.eq_false_iff, ne_eq, isLowSurrogate_iff]
        omega
      simp only [readUnicode, readHex4_eq_ok.2 ⟨text, hex, rfl⟩, notHigh, notLow,
        Bool.false_eq_true, if_false, Char.ofNat_toNat]
    | @pair digits digits' _ high low hex high₁ high₂ hex' low₁ low₂ hx =>
      have isHigh := isHighSurrogate_iff.2 ⟨high₁, high₂⟩
      have isLow := isLowSurrogate_iff.2 ⟨low₁, low₂⟩
      have hchar : combineSurrogates high low = x := by
        rw [combineSurrogates, ← hx, Char.ofNat_toNat]
      rw [List.append_assoc]
      simp only [readUnicode, readHex4_eq_ok.2 ⟨digits, hex, rfl⟩, isHigh, if_true,
        List.cons_append, readHex4_eq_ok.2 ⟨digits', hex', rfl⟩, isLow, hchar]

/-- The decoder takes a unit wherever there is one, and nothing else. -/
theorem readUnit_eq_ok {c x : Char} {cs rest : List Char} :
    readUnit c cs = .ok (x, rest) ↔ ∃ text, Denotes text x ∧ c :: cs = text ++ rest := by
  constructor
  · fun_cases readUnit c cs with
    | case2 hc tail =>
      intro h
      obtain ⟨text, unit, rfl⟩ := readUnicode_eq_ok.1 h
      exact ⟨_, unit, by rw [hc]; rfl⟩
    | case3 hc e tail hnot y hshort =>
      intro h
      obtain ⟨rfl, rfl⟩ := Prod.mk.inj (Except.ok.inj h)
      exact ⟨_, .short (shortEscape_eq_some.1 hshort), by rw [hc]; rfl⟩
    | case5 _ hplain =>
      intro h
      obtain ⟨rfl, rfl⟩ := Prod.mk.inj (Except.ok.inj h)
      exact ⟨_, .plain hplain, rfl⟩
    | _ => exact fun h => nomatch h
  · rintro ⟨text, h, heq⟩
    cases h with
    | plain hplain =>
      obtain ⟨rfl, rfl⟩ := List.cons.inj heq
      exact if_neg hplain
    | @short e _ hmem =>
      obtain ⟨rfl, rfl⟩ := List.cons.inj heq
      -- A `u` is read as the start of four digits, whatever the short escapes are.
      have hu : e ≠ 'u' := by
        rintro rfl
        exact absurd hmem (by simp [shortEscapes])
      simp [readUnit, shortEscape_eq_some.2 hmem]
    | unicode hex hnot hx =>
      obtain ⟨rfl, rfl⟩ := List.cons.inj heq
      exact readUnicode_eq_ok.2 ⟨_, .unicode hex hnot hx, rfl⟩
    | pair hex high₁ high₂ hex' low₁ low₂ hx =>
      obtain ⟨rfl, rfl⟩ := List.cons.inj heq
      exact readUnicode_eq_ok.2 ⟨_, .pair hex high₁ high₂ hex' low₁ low₂ hx, rfl⟩

theorem Denotes.exists_cons {text : List Char} {x : Char} (h : Denotes text x) :
    ∃ c cs, text = c :: cs := by
  cases h <;> exact ⟨_, _, rfl⟩

/-- At most one unit stands at the start of a text. -/
theorem Denotes.unique {s t ms ns : List Char} {x y : Char} (hs : Denotes s x) (ht : Denotes t y)
    (heq : s ++ ms = t ++ ns) : s = t ∧ x = y ∧ ms = ns := by
  obtain ⟨c, cs, rfl⟩ := hs.exists_cons
  have reads : readUnit c (cs ++ ms) = .ok (x, ms) := readUnit_eq_ok.2 ⟨_, hs, rfl⟩
  have reads' : readUnit c (cs ++ ms) = .ok (y, ns) := readUnit_eq_ok.2 ⟨_, ht, heq⟩
  obtain ⟨rfl, rfl⟩ := Prod.mk.inj (Except.ok.inj (reads.symm.trans reads'))
  exact ⟨List.append_cancel_right heq, rfl, rfl⟩

/-! ## A content -/

theorem Splits.nil : Splits [] [] := ⟨rfl, by simp⟩

theorem splits_cons {cs : List Char} {u : List Char × Char} {units : List (List Char × Char)} :
    Splits cs (u :: units) ↔ Denotes u.1 u.2 ∧ ∃ rest, cs = u.1 ++ rest ∧ Splits rest units := by
  constructor
  · rintro ⟨rfl, h⟩
    obtain ⟨hu, hunits⟩ := List.forall_mem_cons.1 h
    exact ⟨hu, _, rfl, rfl, hunits⟩
  · rintro ⟨hu, rest, rfl, rfl, hunits⟩
    exact ⟨rfl, List.forall_mem_cons.2 ⟨hu, hunits⟩⟩

theorem Splits.of_readUnits {cs r : List Char} :
    readUnits cs = .ok r → ∃ units, Splits cs units ∧ r = units.map Prod.snd := by
  fun_induction readUnits cs generalizing r with
  | case1 =>
    rintro h
    obtain rfl := Except.ok.inj h
    exact ⟨[], .nil, rfl⟩
  | case4 c cs x rest hread xs hrest ih =>
    intro h
    obtain rfl := Except.ok.inj h
    obtain ⟨units, hunits, rfl⟩ := ih hrest
    obtain ⟨text, hunit, heq⟩ := readUnit_eq_ok.1 hread
    exact ⟨(text, x) :: units, splits_cons.2 ⟨hunit, rest, heq, hunits⟩, rfl⟩
  | _ => exact fun h => nomatch h

theorem Splits.readUnits {cs : List Char} {units : List (List Char × Char)} (h : Splits cs units) :
    readUnits cs = .ok (units.map Prod.snd) := by
  induction units generalizing cs with
  | nil =>
    obtain rfl := h.text
    simp [StringLiteral.readUnits]
  | cons u units ih =>
    obtain ⟨hu, rest, rfl, hrest⟩ := splits_cons.1 h
    obtain ⟨c, text, htext⟩ := hu.exists_cons
    have hread : readUnit c (text ++ rest) = .ok (u.2, rest) :=
      readUnit_eq_ok.2 ⟨u.1, hu, by rw [htext]; rfl⟩
    rw [htext, List.cons_append, StringLiteral.readUnits, hread]
    simp only [ih hrest, List.map_cons]

theorem Splits.unique {cs : List Char} {us vs : List (List Char × Char)} (hu : Splits cs us)
    (hv : Splits cs vs) : us = vs := by
  induction us generalizing cs vs with
  | nil =>
    cases vs with
    | nil => rfl
    | cons v vs =>
      obtain ⟨hv', rest, hcs, -⟩ := splits_cons.1 hv
      obtain ⟨c, text, htext⟩ := hv'.exists_cons
      have := hu.text.symm.trans hcs
      simp [htext] at this
  | cons u us ih =>
    obtain ⟨hu', rest, hcs, hus⟩ := splits_cons.1 hu
    cases vs with
    | nil =>
      obtain ⟨c, text, htext⟩ := hu'.exists_cons
      have := hv.text.symm.trans hcs
      simp [htext] at this
    | cons v vs =>
      obtain ⟨hv', rest', hcs', hvs⟩ := splits_cons.1 hv
      obtain ⟨htext, hchar, rfl⟩ := hu'.unique hv' (hcs.symm.trans hcs')
      rw [Prod.ext htext hchar, ih hus hvs]

/-! ## Errors -/

theorem readHex4_error {cs : List Char} {e : StringError} (h : readHex4 cs = .error e) :
    ∃ text, e = .invalidUnicode text := by
  simp only [readHex4] at h
  split at h
  · cases h
  · exact ⟨_, (Except.error.inj h).symm⟩

theorem readUnicode_error {cs : List Char} {e : StringError} :
    readUnicode cs = .error e → ∃ text, e = .invalidUnicode text := by
  fun_cases readUnicode cs with
  | case1 e' hcs =>
    intro h
    obtain rfl := Except.error.inj h
    exact readHex4_error hcs
  | case2 unit isHigh more e' hmore hcs =>
    intro h
    obtain rfl := Except.error.inj h
    exact readHex4_error hmore
  | case3 | case7 => exact fun h => nomatch h
  | _ => exact fun h => ⟨_, (Except.error.inj h).symm⟩

/-- A backslash is refused for being the last character or for the character after it, and
an escape with digits for its digits. -/
theorem readUnit_error {c : Char} {cs : List Char} {e : StringError} :
    readUnit c cs = .error e →
      (c :: cs = ['\\'] ∧ e = .invalidEscape "\\") ∨
        (∃ x, e = .invalidEscape (String.ofList ['\\', x])) ∨ ∃ text, e = .invalidUnicode text := by
  fun_cases readUnit c cs with
  | case1 hc => exact fun h => .inl ⟨by rw [hc], (Except.error.inj h).symm⟩
  | case2 hc tail => exact fun h => .inr (.inr (readUnicode_error h))
  | case4 hc x => exact fun h => .inr (.inl ⟨_, (Except.error.inj h).symm⟩)
  | _ => exact fun h => nomatch h

/-- An error is that of the first place where no unit stands. -/
theorem readUnits_error {cs : List Char} {e : StringError} :
    readUnits cs = .error e →
      ∃ taken units c rest, Splits taken units ∧ cs = taken ++ c :: rest ∧
        readUnit c rest = .error e := by
  fun_induction readUnits cs with
  | case2 c cs e' hread =>
    intro h
    obtain rfl := Except.error.inj h
    exact ⟨[], [], c, cs, .nil, rfl, hread⟩
  | case3 c cs x rest hread e' hrest ih =>
    intro h
    obtain rfl := Except.error.inj h
    obtain ⟨text, hunit, heq⟩ := readUnit_eq_ok.1 hread
    obtain ⟨taken, units, c', rest', hunits, rfl, hstop⟩ := ih hrest
    exact ⟨text ++ taken, (text, x) :: units, c', rest',
      splits_cons.2 ⟨hunit, taken, rfl, hunits⟩, by rw [heq, List.append_assoc], hstop⟩
  | _ => exact fun h => nomatch h

/-- A content has a value exactly when it can be cut into units; it can be cut in one way
then, and the value is what the units stand for. A content without a backslash, which is
not looked at, would be read as itself. Any other content is an error of an escape. -/
theorem unescape_exact (cs : List Char) :
    (∀ r, unescape cs = .ok r ↔ ∃ units, Splits cs units ∧ r = units.map Prod.snd) ∧
    (∀ us vs, Splits cs us → Splits cs vs → us = vs) ∧
    ('\\' ∉ cs → unescape cs = .ok cs ∧ readUnits cs = .ok cs) ∧
    ((¬ ∃ units, Splits cs units) →
      ∃ text, unescape cs = .error (.invalidEscape text) ∨
        unescape cs = .error (.invalidUnicode text)) := by
  refine ⟨fun r => ⟨?_, ?_⟩, fun _ _ => Splits.unique, fun h => ?_, fun hnone => ?_⟩
  · rw [unescape_eq_readUnits]
    exact Splits.of_readUnits
  · rintro ⟨units, hunits, rfl⟩
    rw [unescape_eq_readUnits]
    exact hunits.readUnits
  · exact ⟨if_neg h, readUnits_of_not_mem h⟩
  · rw [unescape_eq_readUnits]
    cases hread : readUnits cs with
    | ok r =>
      obtain ⟨units, hunits, -⟩ := Splits.of_readUnits hread
      exact absurd ⟨units, hunits⟩ hnone
    | error e =>
      obtain ⟨taken, units, c, rest, -, -, hstop⟩ := readUnits_error hread
      obtain ⟨-, rfl⟩ | ⟨x, rfl⟩ | ⟨text, rfl⟩ := readUnit_error hstop
      · exact ⟨_, .inl rfl⟩
      · exact ⟨_, .inl rfl⟩
      · exact ⟨text, .inr rfl⟩

/-- Two escapes are one unit where they are a pair; a digit may be of either case. -/
theorem surrogatePair_unescape :
    unescape "a\\uD83D\\ude00\\n".toList = .ok ['a', '😀', '\n'] := by
  have hhigh : Hex4 ['D', '8', '3', 'D'] 0xD83D :=
    .mk (i := 13) (j := 8) (k := 3) (l := 13) (by decide) (by decide) (by decide) (by decide)
  have hlow : Hex4 ['d', 'e', '0', '0'] 0xDE00 :=
    .mk (i := 13) (j := 14) (k := 0) (l := 0) (by decide) (by decide) (by decide) (by decide)
  refine ((unescape_exact _).1 _).2 ⟨[(['a'], 'a'),
    (['\\', 'u', 'D', '8', '3', 'D', '\\', 'u', 'd', 'e', '0', '0'], '😀'),
    (['\\', 'n'], '\n')], ⟨by decide, ?_⟩, rfl⟩
  simp only [List.mem_cons, List.not_mem_nil, or_false, forall_eq_or_imp, forall_eq]
  exact ⟨.plain (by decide), .pair hhigh (by decide) (by decide) hlow (by decide) (by decide) rfl,
    .short (by decide)⟩

end QueryDoc.StringLiteral
