import QueryDoc.Token.Scan
import Mathlib.Data.List.TakeWhile

/-!
# Lexical rules

What the text of a unit looks like, said without the scanners: names, integers
and floats as concatenations of their parts, and which character may not follow
a unit because it would have belonged to it. The main statement is `next_fits`:
a unit that a scanner recognises obeys the rule of its class and is as long as
that rule allows.
-/
namespace QueryDoc.Lexical

/-- A letter or an underscore, then letters, digits and underscores. -/
def IsName (text : List Char) : Prop :=
  ∃ c cs, text = c :: cs ∧ isNameStart c = true ∧ ∀ d ∈ cs, isNameContinue d = true

/-- Whether a text is a name. -/
def isNameText : List Char → Bool
  | [] => false
  | c :: cs => isNameStart c && cs.all isNameContinue

theorem isNameText_iff {text : List Char} : isNameText text = true ↔ IsName text := by
  cases text with
  | nil => simp [isNameText, IsName]
  | cons c cs =>
    rw [isNameText, Bool.and_eq_true, List.all_eq_true]
    constructor
    · rintro ⟨hc, hcs⟩
      exact ⟨c, cs, rfl, hc, hcs⟩
    · rintro ⟨d, ds, htext, hd, hds⟩
      obtain ⟨rfl, rfl⟩ := List.cons.inj htext
      exact ⟨hd, hds⟩

instance (text : List Char) : Decidable (IsName text) := decidable_of_iff _ isNameText_iff

def IsDigits (text : List Char) : Prop := text ≠ [] ∧ ∀ c ∈ text, c.isDigit = true

/-- Digits after an optional minus sign. -/
def IsInteger (text : List Char) : Prop :=
  ∃ sign digits, text = sign ++ digits ∧ (sign = [] ∨ sign = ['-']) ∧ IsDigits digits

/-- Digits after a point. -/
def IsFraction (text : List Char) : Prop := ∃ digits, text = '.' :: digits ∧ IsDigits digits

/-- Digits after the letter of the exponent and an optional sign. -/
def IsExponent (text : List Char) : Prop :=
  ∃ e sign digits, text = e :: (sign ++ digits) ∧ (e = 'e' ∨ e = 'E') ∧
    (sign = [] ∨ sign = ['+'] ∨ sign = ['-']) ∧ IsDigits digits

/-- An integer with a fraction, an exponent, or both. -/
def IsFloat (text : List Char) : Prop :=
  ∃ whole fraction exponent, text = whole ++ fraction ++ exponent ∧ IsInteger whole ∧
    (fraction = [] ∨ IsFraction fraction) ∧ (exponent = [] ∨ IsExponent exponent) ∧
    ¬ (fraction = [] ∧ exponent = [])

/-- The names that are tokens of their own. -/
def literalNames : List (List Char) := ["true".toList, "false".toList, "null".toList]

/-- The first character of a text, if there is one, is outside a class. -/
def StartsOutside (p : Char → Bool) (text : List Char) : Prop := ∀ c ∈ text.head?, p c = false

theorem StartsOutside.cons {p : Char → Bool} {c : Char} (h : p c = false) (cs : List Char) :
    StartsOutside p (c :: cs) := by
  intro d hd
  obtain rfl := Option.some.inj hd
  exact h

/-- What would go on with an integer. -/
def extendsInteger (c : Char) : Bool := c.isDigit || c == '.' || c == 'e' || c == 'E'

/-- The text of a recognised unit obeys its rule, and the text after it does not
go on with it. -/
def Fits (text rest : List Char) : Lexeme → Prop
  | .punctuator p => text = p.text.toList
  | .name => IsName text ∧ StartsOutside isNameContinue rest
  | .int => IsInteger text ∧ StartsOutside extendsInteger rest
  | .float => IsFloat text ∧ StartsOutside Char.isDigit rest
  | .string => True
  | .fault _ => True

theorem startsOutside_dropWhile (p : Char → Bool) (cs : List Char) :
    StartsOutside p (cs.dropWhile p) := by
  intro c hc
  induction cs with
  | nil => simp at hc
  | cons d ds ih =>
    by_cases hd : p d = true
    · exact ih (by simpa [List.dropWhile_cons, hd] using hc)
    · simp only [List.dropWhile_cons, hd] at hc
      have he : d = c := by simpa using hc
      simpa [he] using hd

theorem isNameContinue_of_start {c : Char} (h : isNameStart c = true) :
    isNameContinue c = true := by
  simp only [isNameStart, isNameContinue, Char.isAlphanum, Bool.or_eq_true] at h ⊢
  exact h.imp .inl id

theorem isDigits_takeWhile {cs : List Char} (h : Scan.startsWithDigit cs = true) :
    IsDigits (cs.takeWhile Char.isDigit) := by
  cases cs with
  | nil => simp [Scan.startsWithDigit] at h
  | cons c cs =>
    have hc : c.isDigit = true := h
    exact ⟨by simp [hc], fun d hd => List.mem_takeWhile_imp hd⟩

theorem name_fits {c : Char} (cs : List Char) (h : isNameStart c = true) :
    Fits (Scan.name (c :: cs)).text (Scan.name (c :: cs)).rest .name := by
  have hc := isNameContinue_of_start h
  refine ⟨⟨c, cs.takeWhile isNameContinue, ?_, h, fun d hd => List.mem_takeWhile_imp hd⟩, ?_⟩
  · simp [Scan.name, hc]
  · exact startsOutside_dropWhile _ _

theorem dots_fits (cs : List Char) :
    Fits (Scan.dots cs).text (Scan.dots cs).rest (Scan.dots cs).lexeme := by
  unfold Scan.dots
  split
  · rename_i ds hds
    split
    · by_cases h : (cs.takeWhile isSpacing).isEmpty ∧ (ds.takeWhile isSpacing).isEmpty
      · have h1 := List.isEmpty_iff.1 h.1
        have h2 := List.isEmpty_iff.1 h.2
        simp [h1, h2, Fits, Punctuator.text]
      · have hb := fun h1 h2 => h ⟨h1, h2⟩
        simp only [Bool.and_eq_true]
        rw [if_neg (fun hh => hb hh.1 hh.2)]
        trivial
    · trivial
  · trivial

/-- The end of a number is an exponent, nothing, or broken. -/
theorem exponent_cases (lexeme : Lexeme) (text cs : List Char) :
    (∃ x rest, Scan.exponent lexeme text cs = ⟨.float, text ++ x, rest⟩ ∧ IsExponent x ∧
        StartsOutside Char.isDigit rest) ∨
      (Scan.exponent lexeme text cs = ⟨lexeme, text, cs⟩ ∧
        StartsOutside (fun c => c == 'e' || c == 'E') cs) ∨
      ∃ f, (Scan.exponent lexeme text cs).lexeme = .fault f := by
  cases cs with
  | nil => exact .inr (.inl ⟨rfl, by intro c hc; simp at hc⟩)
  | cons e ds =>
    by_cases he : e = 'e' ∨ e = 'E'
    · by_cases hd : Scan.startsWithDigit (Scan.splitSign ds).2 = true
      · refine .inl ⟨e :: ((Scan.splitSign ds).1 ++ (Scan.splitSign ds).2.takeWhile Char.isDigit),
          (Scan.splitSign ds).2.dropWhile Char.isDigit, ?_, ?_, startsOutside_dropWhile _ _⟩
        · simp [Scan.exponent, he, hd]
        · refine ⟨e, _, _, rfl, he, ?_, isDigits_takeWhile hd⟩
          cases ds with
          | nil => exact .inl rfl
          | cons c ds => by_cases hc : c = '+' ∨ c = '-' <;> simp [Scan.splitSign, hc]
      · have hb : ∃ f t, Scan.exponent lexeme text (e :: ds) =
            Scan.brokenNumber f t (Scan.splitSign ds).2 :=
          ⟨_, _, by simp only [Scan.exponent, if_pos he, if_neg hd]; rfl⟩
        obtain ⟨f, t, hb⟩ := hb
        exact .inr (.inr ⟨_, by rw [hb]; rfl⟩)
    · refine .inr (.inl ⟨by simp [Scan.exponent, he], ?_⟩)
      intro c hc
      have : e = c := by simpa using hc
      subst this
      simpa using he

theorem number_fits {sign : List Char} (cs : List Char) (hs : sign = [] ∨ sign = ['-']) :
    Fits (Scan.number sign cs).text (Scan.number sign cs).rest (Scan.number sign cs).lexeme := by
  unfold Scan.number
  split
  · rename_i hd
    have hw : IsInteger (sign ++ cs.takeWhile Char.isDigit) :=
      ⟨sign, _, rfl, hs, isDigits_takeWhile hd⟩
    have hr := startsOutside_dropWhile Char.isDigit cs
    generalize sign ++ cs.takeWhile Char.isDigit = whole at hw
    generalize cs.dropWhile Char.isDigit = rest at hr
    unfold Scan.fraction
    split
    · rename_i ds
      split
      · rename_i hf
        have hfrac : IsFraction ('.' :: ds.takeWhile Char.isDigit) :=
          ⟨_, rfl, isDigits_takeWhile hf⟩
        rcases exponent_cases .float (whole ++ '.' :: ds.takeWhile Char.isDigit)
          (ds.dropWhile Char.isDigit) with ⟨x, r, he, hx, ho⟩ | ⟨he, -⟩ | ⟨f, he⟩
        · rw [he]
          exact ⟨⟨whole, _, x, rfl, hw, .inr hfrac, .inr hx, by simp⟩, ho⟩
        · rw [he]
          exact ⟨⟨whole, _, [], by simp, hw, .inr hfrac, .inl rfl, by simp⟩,
            startsOutside_dropWhile _ _⟩
        · rw [he]
          trivial
      · trivial
    · rename_i hdot
      rcases exponent_cases .int whole rest with ⟨x, r, he, hx, ho⟩ | ⟨he, ho⟩ | ⟨f, he⟩
      · rw [he]
        have hne : x ≠ [] := by
          obtain ⟨e, sign, digits, rfl, -⟩ := hx
          simp
        exact ⟨⟨whole, [], x, by simp, hw, .inl rfl, .inr hx, by simp [hne]⟩, ho⟩
      · rw [he]
        refine ⟨hw, ?_⟩
        intro c hc
        have h1 := hr c hc
        have h2 := ho c hc
        have h3 : c ≠ '.' := by
          rintro rfl
          obtain ⟨tl, rfl⟩ : ∃ tl, rest = '.' :: tl := List.head?_eq_some_iff.1 hc
          exact hdot tl rfl
        simp only [Bool.or_eq_false_iff] at h2
        simp [extendsInteger, h1, h2, h3]
      · rw [he]
        trivial
  · trivial

theorem quoted_lexeme (cs : List Char) :
    (Scan.quoted cs).lexeme = .string ∨ ∃ f, (Scan.quoted cs).lexeme = .fault f := by
  fun_induction Scan.quoted cs with
  | case1 => exact .inr ⟨_, rfl⟩
  | case2 => exact .inl rfl
  | case3 _ _ _ ih => exact ih
  | case4 _ _ _ ih => exact ih
  | case5 => exact .inr ⟨_, rfl⟩
  | case6 _ _ _ _ _ ih => exact ih

theorem block_lexeme (cs : List Char) :
    (Scan.block cs).lexeme = .string ∨ ∃ f, (Scan.block cs).lexeme = .fault f := by
  fun_induction Scan.block cs with
  | case1 => exact .inr ⟨_, rfl⟩
  | case2 _ ih => exact ih
  | case3 => exact .inl rfl
  | case4 _ _ _ _ ih => exact ih

theorem string_fits (cs : List Char) :
    Fits (Scan.string cs).text (Scan.string cs).rest (Scan.string cs).lexeme := by
  unfold Scan.string
  split
  · rename_i ds
    rcases block_lexeme ds with h | ⟨f, h⟩ <;> simp [Scan.push, h, Fits]
  · rcases quoted_lexeme cs with h | ⟨f, h⟩ <;> simp [Scan.push, h, Fits]

/-- A recognised unit obeys the rule of its class and ends where that rule does. -/
theorem next_fits (c : Char) (cs : List Char) :
    Fits (Scan.next c cs).text (Scan.next c cs).rest (Scan.next c cs).lexeme := by
  unfold Scan.next
  split
  · rename_i p hp
    unfold Scan.punctuator? at hp
    split at hp <;> cases hp <;> rfl
  · split
    · exact dots_fits cs
    · split
      · exact string_fits cs
      · split
        · rename_i hc
          exact name_fits cs hc
        · split
          · exact number_fits cs (.inr rfl)
          · split
            · exact number_fits (c :: cs) (.inl rfl)
            · trivial

end QueryDoc.Lexical
