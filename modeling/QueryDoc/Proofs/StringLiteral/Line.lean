import QueryDoc.StringLiteral.Block
import Mathlib.Data.List.TakeWhile

/-!
# Lines put together and taken apart

Joining lines by line feeds and splitting a text into lines are inverse to each
other as long as no line contains the end of one.
-/
namespace QueryDoc.StringLiteral

/-- No character of the list ends a line. -/
def IsLine (l : List Char) : Prop := ∀ c ∈ l, isLineEnd c = false

theorem isLine_nil : IsLine [] := fun _ hc => absurd hc List.not_mem_nil

@[simp] theorem joinLines_singleton (l : List Char) : joinLines [l] = l :=
  List.intercalate_singleton

@[simp] theorem joinLines_cons_cons (l m : List Char) (ls : List (List Char)) :
    joinLines (l :: m :: ls) = l ++ '\n' :: joinLines (m :: ls) := by
  simp [joinLines, List.intercalate_cons_cons]

/-- What respects line feeds works line by line. -/
theorem map_joinLines {f : List Char → List Char} (hnil : f [] = [])
    (hfeed : ∀ l more, f (l ++ '\n' :: more) = f l ++ '\n' :: f more) (ls : List (List Char)) :
    f (joinLines ls) = joinLines (ls.map f) := by
  induction ls with
  | nil => exact hnil
  | cons l ls ih =>
    cases ls with
    | nil => simp
    | cons m ls =>
      rw [List.map_cons] at ih
      rw [joinLines_cons_cons, hfeed, ih, List.map_cons, List.map_cons, joinLines_cons_cons]

theorem splitLines_ne_nil (cs : List Char) : splitLines cs ≠ [] := by
  fun_induction splitLines cs with
  | case4 c cs _ _ ih =>
    cases h : splitLines cs with
    | nil => exact absurd h ih
    | cons l ls => simp [consFirst]
  | _ => simp

theorem isLine_of_mem_splitLines {cs l : List Char} (h : l ∈ splitLines cs) : IsLine l := by
  fun_induction splitLines cs generalizing l with
  | case1 =>
    rw [List.mem_singleton.1 h]
    exact isLine_nil
  | case2 cs ih =>
    rcases List.mem_cons.1 h with rfl | h
    · exact isLine_nil
    · exact ih h
  | case3 c cs _ _ ih =>
    rcases List.mem_cons.1 h with rfl | h
    · exact isLine_nil
    · exact ih h
  | case4 c cs _ hc ih =>
    cases hs : splitLines cs with
    | nil => exact absurd hs (splitLines_ne_nil cs)
    | cons m ms =>
      rw [hs] at h ih
      rcases List.mem_cons.1 h with rfl | h
      · exact List.forall_mem_cons.2 ⟨by simpa using hc, ih List.mem_cons_self⟩
      · exact ih (List.mem_cons_of_mem m h)

theorem splitLines_cons {c : Char} (cs : List Char) (h : isLineEnd c = false) :
    splitLines (c :: cs) = consFirst c (splitLines cs) := by
  rw [splitLines]
  · simp [h]
  · rintro _ rfl
    exact absurd h (by decide)

theorem splitLines_append {l : List Char} (h : IsLine l) (cs : List Char) :
    splitLines (l ++ '\n' :: cs) = l :: splitLines cs := by
  induction l with
  | nil => simp [splitLines, isLineEnd]
  | cons c l ih =>
    obtain ⟨hc, hl⟩ := List.forall_mem_cons.1 h
    rw [List.cons_append, splitLines_cons _ hc, ih hl, consFirst]

theorem splitLines_line {l : List Char} (h : IsLine l) : splitLines l = [l] := by
  induction l with
  | nil => rfl
  | cons c l ih =>
    obtain ⟨hc, hl⟩ := List.forall_mem_cons.1 h
    rw [splitLines_cons _ hc, ih hl, consFirst]

theorem splitLines_joinLines {ls : List (List Char)} (hne : ls ≠ []) (h : ∀ l ∈ ls, IsLine l) :
    splitLines (joinLines ls) = ls := by
  induction ls with
  | nil => exact absurd rfl hne
  | cons l ls ih =>
    obtain ⟨hl, hls⟩ := List.forall_mem_cons.1 h
    cases ls with
    | nil => rw [joinLines_singleton, splitLines_line hl]
    | cons m ls =>
      rw [joinLines_cons_cons, splitLines_append hl, ih (List.cons_ne_nil m ls) hls]

/-- Different lines make different texts. -/
theorem joinLines_inj {ls ms : List (List Char)} (hls : ls ≠ []) (hms : ms ≠ [])
    (hl : ∀ l ∈ ls, IsLine l) (hm : ∀ m ∈ ms, IsLine m) :
    joinLines ls = joinLines ms ↔ ls = ms := by
  constructor
  · intro h
    rw [← splitLines_joinLines hls hl, h, splitLines_joinLines hms hm]
  · exact congrArg joinLines

/-! ## Lines between line feeds -/

theorem splitChars_ne_nil (sep : Char) (cs : List Char) : splitChars sep cs ≠ [] := by
  fun_induction splitChars sep cs with
  | case3 c cs _ ih =>
    cases h : splitChars sep cs with
    | nil => exact absurd h ih
    | cons l ls => simp [consFirst]
  | _ => simp

theorem joinLines_nil_cons {ls : List (List Char)} (h : ls ≠ []) :
    joinLines ([] :: ls) = '\n' :: joinLines ls := by
  cases ls with
  | nil => exact absurd rfl h
  | cons l ls => rw [joinLines_cons_cons, List.nil_append]

theorem joinLines_consFirst (c : Char) {ls : List (List Char)} (h : ls ≠ []) :
    joinLines (consFirst c ls) = c :: joinLines ls := by
  match ls with
  | [l] => rw [consFirst, joinLines_singleton, joinLines_singleton]
  | l :: m :: ls => rw [consFirst, joinLines_cons_cons, joinLines_cons_cons, List.cons_append]

theorem joinLines_splitChars (cs : List Char) : joinLines (splitChars '\n' cs) = cs := by
  fun_induction splitChars '\n' cs with
  | case1 => rfl
  | case2 cs ih => rw [joinLines_nil_cons (splitChars_ne_nil _ cs), ih]
  | case3 c cs _ ih => rw [joinLines_consFirst c (splitChars_ne_nil _ cs), ih]

/-- In a text without carriage returns only line feeds end a line. -/
theorem splitLines_eq_splitChars {cs : List Char} (h : '\r' ∉ cs) :
    splitLines cs = splitChars '\n' cs := by
  induction cs with
  | nil => rfl
  | cons c cs ih =>
    rw [List.mem_cons, not_or] at h
    obtain ⟨hc, hcs⟩ := h
    by_cases hfeed : c = '\n'
    · subst hfeed
      rw [splitChars, if_pos rfl, ← ih hcs]
      exact splitLines_append isLine_nil cs
    · rw [splitChars, if_neg hfeed, ← ih hcs]
      exact splitLines_cons cs (by simp [isLineEnd, hfeed, Ne.symm hc])

theorem not_mem_joinLines {ls : List (List Char)} (h : ∀ l ∈ ls, IsLine l) :
    '\r' ∉ joinLines ls := by
  induction ls with
  | nil => simp [joinLines]
  | cons l ls ih =>
    obtain ⟨hl, hls⟩ := List.forall_mem_cons.1 h
    have hreturn : '\r' ∉ l := fun hmem => by cases hl _ hmem
    cases ls with
    | nil => rwa [joinLines_singleton]
    | cons m ls =>
      rw [joinLines_cons_cons, List.mem_append, List.mem_cons]
      exact not_or.2 ⟨hreturn, not_or.2 ⟨by decide, ih hls⟩⟩

/-! ## Blank lines and indents -/

theorem indentOf_cons (c : Char) (l : List Char) :
    indentOf (c :: l) = if isBlank c then indentOf l + 1 else 0 := by
  by_cases h : isBlank c = true <;> simp [indentOf, h]

/-- A line without an indent starts with neither a space nor a tab. -/
theorem indentOf_eq_zero {l : List Char} : indentOf l = 0 ↔ ∀ c ∈ l.head?, isBlank c = false := by
  cases l with
  | nil => simp [indentOf]
  | cons c l => by_cases hc : isBlank c = true <;> simp [indentOf_cons, hc]

theorem isBlankLine_cons (c : Char) (l : List Char) :
    isBlankLine (c :: l) = (isBlank c && isBlankLine l) := rfl

theorem indentOf_le (l : List Char) : indentOf l ≤ l.length :=
  (List.takeWhile_prefix isBlank).length_le

theorem isLine_drop {l : List Char} (h : IsLine l) (n : Nat) : IsLine (l.drop n) :=
  fun c hc => h c (List.mem_of_mem_drop hc)

/-- A line that is not blank stays so without its indent or a part of it. -/
theorem isBlankLine_drop {l : List Char} {n : Nat} (hn : n ≤ indentOf l) :
    isBlankLine (l.drop n) = isBlankLine l := by
  induction l generalizing n with
  | nil => simp
  | cons c l ih =>
    cases n with
    | zero => rfl
    | succ n =>
      rw [indentOf_cons] at hn
      split at hn
      · rename_i hc
        rw [List.drop_succ_cons, ih (Nat.le_of_succ_le_succ hn), isBlankLine_cons, hc,
          Bool.true_and]
      · exact absurd hn (Nat.not_succ_le_zero n)

/-- Spaces in front of a line. -/
def spaces (k : Nat) : List Char := List.replicate k ' '

theorem indentOf_spaces (k : Nat) (l : List Char) : indentOf (spaces k ++ l) = k + indentOf l := by
  induction k with
  | zero => simp [spaces]
  | succ k ih =>
    have h : spaces (k + 1) ++ l = ' ' :: (spaces k ++ l) := by simp [spaces, List.replicate_succ]
    rw [h, indentOf_cons, if_pos (by decide), ih]
    omega

theorem isBlankLine_spaces (k : Nat) (l : List Char) :
    isBlankLine (spaces k ++ l) = isBlankLine l := by
  rw [← isBlankLine_drop (n := k) (by rw [indentOf_spaces]; omega)]
  congr 1
  exact List.drop_left' (by simp [spaces])

theorem isBlankLine_replicate (k : Nat) : isBlankLine (spaces k) = true := by
  have h := isBlankLine_spaces k []
  rwa [List.append_nil] at h

theorem isLine_spaces {k : Nat} {l : List Char} (h : IsLine l) : IsLine (spaces k ++ l) := by
  intro c hc
  rcases List.mem_append.1 hc with hc | hc
  · rw [List.eq_of_mem_replicate hc]
    rfl
  · exact h c hc

/-! ## What the dedenting looks at -/

/-- The indents of the indented lines after the first that are not blank. -/
def indents (lines : List (List Char)) : List Nat :=
  (((lines.drop 1).filter (fun l => !isBlankLine l)).map indentOf).filter (0 < ·)

theorem mem_indents {lines : List (List Char)} {n : Nat} :
    n ∈ indents lines ↔ ∃ l ∈ lines.drop 1, isBlankLine l = false ∧ 0 < n ∧ indentOf l = n := by
  simp only [indents, List.mem_filter, List.mem_map, Bool.not_eq_true', decide_eq_true_eq]
  constructor
  · rintro ⟨⟨l, ⟨hl, hb⟩, hi⟩, hn⟩
    exact ⟨l, hl, hb, hn, hi⟩
  · rintro ⟨l, hl, hb, hn, hi⟩
    exact ⟨⟨l, ⟨hl, hb⟩, hi⟩, hn⟩

theorem commonIndent_cases (lines : List (List Char)) :
    (commonIndent lines = 0 ∧ indents lines = []) ∨
      (commonIndent lines ∈ indents lines ∧ ∀ n ∈ indents lines, commonIndent lines ≤ n) := by
  have hdef : commonIndent lines = (indents lines).min?.getD 0 := rfl
  cases hmin : (indents lines).min? with
  | none =>
    rw [hmin] at hdef
    exact .inl ⟨hdef, List.min?_eq_none_iff.1 hmin⟩
  | some n =>
    rw [hmin] at hdef
    obtain ⟨hmem, hle⟩ := List.min?_eq_some_iff.1 hmin
    have hn : commonIndent lines = n := hdef
    exact .inr (by rw [hn]; exact ⟨hmem, hle⟩)

/-- Dropping the blank lines at both ends leaves lines that are not blank there. -/
theorem trimBlankLines_ends (lines : List (List Char)) :
    (∀ l ∈ (trimBlankLines lines).head?, isBlankLine l = false) ∧
      ∀ l ∈ (trimBlankLines lines).getLast?, isBlankLine l = false := by
  have head_dropWhile : ∀ ls : List (List Char),
      ∀ l ∈ (ls.dropWhile isBlankLine).head?, isBlankLine l = false := by
    intro ls l hl
    have h := List.head?_dropWhile_not isBlankLine ls
    rw [Option.mem_def.1 hl] at h
    simpa using h
  constructor
  · intro l hl
    -- what is left at the front is left after trimming the back
    have hprefix : trimBlankLines lines <+: lines.dropWhile isBlankLine := by
      have h := List.dropWhile_suffix isBlankLine (l := (lines.dropWhile isBlankLine).reverse)
      exact List.reverse_suffix.1 (by simpa [trimBlankLines] using h)
    obtain ⟨more, hmore⟩ := hprefix
    obtain ⟨rest, hrest⟩ := List.head?_eq_some_iff.1 (Option.mem_def.1 hl)
    refine head_dropWhile lines l ?_
    rw [← hmore, hrest]
    rfl
  · intro l hl
    rw [trimBlankLines, List.getLast?_reverse] at hl
    exact head_dropWhile _ l hl

/-- Nothing is dropped between lines that are not blank. -/
theorem trimBlankLines_eq_self {lines : List (List Char)}
    (hhead : ∀ l ∈ lines.head?, isBlankLine l = false)
    (hlast : ∀ l ∈ lines.getLast?, isBlankLine l = false) : trimBlankLines lines = lines := by
  have keep : ∀ ls : List (List Char), (∀ l ∈ ls.head?, isBlankLine l = false) →
      ls.dropWhile isBlankLine = ls := by
    intro ls h
    cases ls with
    | nil => rfl
    | cons l ls => rw [List.dropWhile_cons_of_neg (by simp [h l rfl])]
  rw [trimBlankLines, keep lines hhead, keep _ (by rwa [List.head?_reverse]), List.reverse_reverse]

theorem trimBlankLines_cons {l : List Char} (ls : List (List Char)) (h : isBlankLine l = true) :
    trimBlankLines (l :: ls) = trimBlankLines ls := by
  rw [trimBlankLines, List.dropWhile_cons_of_pos h, trimBlankLines]

theorem trimBlankLines_concat {l : List Char} (ls : List (List Char)) (h : isBlankLine l = true) :
    trimBlankLines (ls ++ [l]) = trimBlankLines ls := by
  rw [trimBlankLines, trimBlankLines, List.dropWhile_append]
  split
  · rename_i hempty
    rw [List.isEmpty_iff.1 hempty, List.dropWhile_cons_of_pos h, List.dropWhile_nil]
  · rw [List.reverse_append, List.reverse_singleton, List.singleton_append,
      List.dropWhile_cons_of_pos h]

end QueryDoc.StringLiteral
