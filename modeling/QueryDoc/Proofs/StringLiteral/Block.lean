import QueryDoc.Proofs.StringLiteral.Line
import QueryDoc.Proofs.StringLiteral.Quote
import Mathlib.Data.List.Basic

/-!
# Block literals read back

A block string is printed with every line indented by the same number of spaces,
and its quotes stand on lines of their own. The literal ends where it was
closed, whatever the text is. What it denotes is the text without blank lines at
both ends and with its common indent taken off, where the indent of the printed
lines counts. So a text whose lines are laid out already comes back if and only
if that common indent is the printed indent and nothing more, which is said line
by line in `KeepsIndent`.
-/
namespace QueryDoc.StringLiteral

/-! ## Escaped quotes -/

/-- The escaping looks at quotes only. -/
theorem escapeTriples_cons {c : Char} (cs : List Char)
    (h : c = '"' → ∀ ds, cs ≠ '"' :: '"' :: ds) :
    escapeTriples (c :: cs) = c :: escapeTriples cs := by
  rw [escapeTriples]
  rintro ds rfl rfl
  exact h rfl ds rfl

/-- The unescaping looks at backslashes only. -/
theorem unescapeTriples_cons {c : Char} (cs : List Char)
    (h : c = '\\' → ∀ ds, cs ≠ '"' :: '"' :: '"' :: ds) :
    unescapeTriples (c :: cs) = c :: unescapeTriples cs := by
  rw [unescapeTriples]
  rintro ds rfl rfl
  exact h rfl ds rfl

/-- A quote at the start of an escaped text was there before, and is not one of
three. -/
theorem quote_of_escapeTriples {cs ds : List Char} (h : escapeTriples cs = '"' :: ds) :
    ∃ es, cs = '"' :: es ∧ ds = escapeTriples es ∧ ∀ fs, es ≠ '"' :: '"' :: fs := by
  unfold escapeTriples at h
  split at h
  · cases h
  · rename_i c es hno
    obtain ⟨rfl, rfl⟩ := List.cons.inj h
    exact ⟨es, rfl, rfl, fun fs hfs => hno fs rfl hfs⟩
  · cases h

theorem escapeTriples_ne_triple (cs ds : List Char) :
    escapeTriples cs ≠ '"' :: '"' :: '"' :: ds := by
  intro h
  obtain ⟨es, rfl, hes, hno⟩ := quote_of_escapeTriples h
  obtain ⟨fs, rfl, hfs, -⟩ := quote_of_escapeTriples hes.symm
  obtain ⟨gs, rfl, -, -⟩ := quote_of_escapeTriples hfs.symm
  exact hno gs rfl

@[simp] theorem unescapeTriples_escapeTriples (cs : List Char) :
    unescapeTriples (escapeTriples cs) = cs := by
  fun_induction escapeTriples cs with
  | case1 cs ih => rw [unescapeTriples, ih]
  | case2 c cs _ ih =>
    rw [unescapeTriples_cons _ fun _ ds => escapeTriples_ne_triple cs ds, ih]
  | case3 => rfl

/-- Three quotes do not reach over the end of a line. -/
theorem quotes_of_append {n : Nat} {cs more ds : List Char}
    (h : cs ++ '\n' :: more = List.replicate n '"' ++ ds) :
    ∃ es, cs = List.replicate n '"' ++ es := by
  induction n generalizing cs with
  | zero => exact ⟨cs, rfl⟩
  | succ n ih =>
    cases cs with
    | nil => cases h
    | cons c cs =>
      obtain ⟨rfl, htail⟩ := List.cons.inj h
      obtain ⟨es, rfl⟩ := ih htail
      exact ⟨es, rfl⟩

theorem escapeTriples_append (cs more : List Char) :
    escapeTriples (cs ++ '\n' :: more) = escapeTriples cs ++ '\n' :: escapeTriples more := by
  fun_induction escapeTriples cs with
  | case1 cs ih => simp [escapeTriples, ih]
  | case2 c cs hno ih =>
    rw [List.cons_append, escapeTriples_cons, ih, List.cons_append]
    rintro rfl ds hds
    obtain ⟨es, rfl⟩ := quotes_of_append (n := 2) hds
    exact hno es rfl rfl
  | case3 => exact escapeTriples_cons more (by simp)

theorem unescapeTriples_append (cs more : List Char) :
    unescapeTriples (cs ++ '\n' :: more) = unescapeTriples cs ++ '\n' :: unescapeTriples more := by
  fun_induction unescapeTriples cs with
  | case1 cs ih => simp [unescapeTriples, ih]
  | case2 c cs hno ih =>
    rw [List.cons_append, unescapeTriples_cons, ih, List.cons_append]
    rintro rfl ds hds
    obtain ⟨es, rfl⟩ := quotes_of_append (n := 3) hds
    exact hno es rfl rfl
  | case3 => exact unescapeTriples_cons more (by simp)

theorem escapeTriples_joinLines (ls : List (List Char)) :
    escapeTriples (joinLines ls) = joinLines (ls.map escapeTriples) :=
  map_joinLines rfl escapeTriples_append ls

theorem unescapeTriples_joinLines (ls : List (List Char)) :
    unescapeTriples (joinLines ls) = joinLines (ls.map unescapeTriples) :=
  map_joinLines rfl unescapeTriples_append ls

theorem isLine_escapeTriples {l : List Char} (h : IsLine l) : IsLine (escapeTriples l) := by
  fun_induction escapeTriples l with
  | case1 cs ih =>
    simp only [IsLine, List.forall_mem_cons] at h ⊢
    exact ⟨by decide, by decide, by decide, by decide, ih h.2.2.2⟩
  | case2 c cs _ ih =>
    obtain ⟨hc, hcs⟩ := List.forall_mem_cons.1 h
    exact List.forall_mem_cons.2 ⟨hc, ih hcs⟩
  | case3 => exact h

theorem isLine_unescapeTriples {l : List Char} (h : IsLine l) : IsLine (unescapeTriples l) := by
  fun_induction unescapeTriples l with
  | case1 cs ih =>
    simp only [IsLine, List.forall_mem_cons] at h ⊢
    exact ⟨by decide, by decide, by decide, ih h.2.2.2.2⟩
  | case2 c cs _ ih =>
    obtain ⟨hc, hcs⟩ := List.forall_mem_cons.1 h
    exact List.forall_mem_cons.2 ⟨hc, ih hcs⟩
  | case3 => exact h

@[simp] theorem isBlankLine_escapeTriples (l : List Char) :
    isBlankLine (escapeTriples l) = isBlankLine l := by
  fun_induction escapeTriples l with
  | case1 => rfl
  | case2 c cs _ ih => rw [isBlankLine_cons, ih, isBlankLine_cons]
  | case3 => rfl

@[simp] theorem isBlankLine_unescapeTriples (l : List Char) :
    isBlankLine (unescapeTriples l) = isBlankLine l := by
  fun_induction unescapeTriples l with
  | case1 => rfl
  | case2 c cs _ ih => rw [isBlankLine_cons, ih, isBlankLine_cons]
  | case3 => rfl

@[simp] theorem indentOf_escapeTriples (l : List Char) :
    indentOf (escapeTriples l) = indentOf l := by
  fun_induction escapeTriples l with
  | case1 => rfl
  | case2 c cs _ ih => rw [indentOf_cons, ih, indentOf_cons]
  | case3 => rfl

theorem drop_escapeTriples {l : List Char} {n : Nat} (hn : n ≤ indentOf l) :
    (escapeTriples l).drop n = escapeTriples (l.drop n) := by
  induction l generalizing n with
  | nil => simp [escapeTriples]
  | cons c l ih =>
    cases n with
    | zero => rfl
    | succ n =>
      rw [indentOf_cons] at hn
      split at hn
      · rename_i hc
        have hquote : c ≠ '"' := by
          rintro rfl
          cases hc
        rw [escapeTriples_cons l fun h => absurd h hquote, List.drop_succ_cons,
          List.drop_succ_cons, ih (Nat.le_of_succ_le_succ hn)]
      · exact absurd hn (Nat.not_succ_le_zero n)

/-! ## What a literal denotes -/

/-- Lines without their common indent and without blank lines at the ends. -/
def layOut (lines : List (List Char)) : List (List Char) :=
  (trimBlankLines lines).map fun l => l.drop (min (indentOf l) (commonIndent lines))

theorem dedent_eq (content : List Char) :
    dedent content = unescapeTriples (joinLines (layOut (splitLines content))) := rfl

theorem indents_escapeTriples (lines : List (List Char)) :
    indents (lines.map escapeTriples) = indents lines := by
  simp only [indents, List.drop_one, ← List.map_tail, List.filter_map, List.map_map,
    Function.comp_def, isBlankLine_escapeTriples, indentOf_escapeTriples]

theorem layOut_escapeTriples (lines : List (List Char)) :
    layOut (lines.map escapeTriples) = (layOut lines).map escapeTriples := by
  have hcommon : commonIndent (lines.map escapeTriples) = commonIndent lines :=
    congrArg (fun ns => ns.min?.getD 0) (indents_escapeTriples lines)
  have htrim : trimBlankLines (lines.map escapeTriples) =
      (trimBlankLines lines).map escapeTriples := by
    simp only [trimBlankLines, List.dropWhile_map, ← List.map_reverse, Function.comp_def,
      isBlankLine_escapeTriples]
  simp only [layOut, hcommon, htrim, List.map_map, Function.comp_def, indentOf_escapeTriples]
  exact List.map_congr_left fun l _ => drop_escapeTriples (Nat.min_le_left _ _)

theorem dedent_escapeTriples {lines : List (List Char)} (hne : lines ≠ [])
    (h : ∀ l ∈ lines, IsLine l) :
    dedent (escapeTriples (joinLines lines)) = joinLines (layOut lines) := by
  have hsplit : splitLines (joinLines (lines.map escapeTriples)) = lines.map escapeTriples := by
    refine splitLines_joinLines (by simpa using hne) ?_
    intro l hl
    obtain ⟨m, hm, rfl⟩ := List.mem_map.1 hl
    exact isLine_escapeTriples (h m hm)
  rw [dedent_eq, escapeTriples_joinLines, hsplit, layOut_escapeTriples, ← escapeTriples_joinLines,
    unescapeTriples_escapeTriples]

/-- A text that is empty, or consists of lines of which the first and the last
are not blank. -/
def IsLaidOut (cs : List Char) : Prop :=
  cs = [] ∨ ∃ ls, cs = joinLines ls ∧ ls ≠ [] ∧ (∀ l ∈ ls, IsLine l) ∧
    (∀ l ∈ ls.head?, isBlankLine l = false) ∧ ∀ l ∈ ls.getLast?, isBlankLine l = false

/-- The first line and the last, between line feeds, are not blank. -/
def HasSolidEnds (cs : List Char) : Prop :=
  (∀ l ∈ (splitChars '\n' cs).head?, isBlankLine l = false) ∧
    ∀ l ∈ (splitChars '\n' cs).getLast?, isBlankLine l = false

theorem isLaidOut_iff {cs : List Char} :
    IsLaidOut cs ↔ cs = [] ∨ '\r' ∉ cs ∧ HasSolidEnds cs := by
  refine or_congr_right ⟨?_, ?_⟩
  · rintro ⟨ls, rfl, hne, hls, hends⟩
    have hreturn := not_mem_joinLines hls
    refine ⟨hreturn, ?_⟩
    rwa [HasSolidEnds, ← splitLines_eq_splitChars hreturn, splitLines_joinLines hne hls]
  · rintro ⟨hreturn, hends⟩
    refine ⟨splitChars '\n' cs, (joinLines_splitChars cs).symm, splitChars_ne_nil _ cs, ?_, hends⟩
    rw [← splitLines_eq_splitChars hreturn]
    exact fun l hl => isLine_of_mem_splitLines hl

/-- What a block literal denotes is laid out. -/
theorem isLaidOut_dedent (content : List Char) : IsLaidOut (dedent content) := by
  rw [dedent_eq, unescapeTriples_joinLines, layOut, List.map_map]
  obtain ⟨hhead, hlast⟩ := trimBlankLines_ends (splitLines content)
  have hlines : ∀ l ∈ trimBlankLines (splitLines content), IsLine l := by
    intro l hl
    have h := (List.dropWhile_sublist _).mem (List.mem_reverse.1 hl)
    have hmem : l ∈ splitLines content := (List.dropWhile_sublist _).mem (List.mem_reverse.1 h)
    exact isLine_of_mem_splitLines hmem
  generalize trimBlankLines (splitLines content) = ls at hhead hlast hlines
  by_cases hls : ls = []
  · exact .inl (by rw [hls]; rfl)
  · refine .inr ⟨_, rfl, by simpa using hls, ?_, ?_, ?_⟩
    · intro l hl
      obtain ⟨m, hm, rfl⟩ := List.mem_map.1 hl
      exact isLine_unescapeTriples (isLine_drop (hlines m hm) _)
    · intro l hl
      rw [List.head?_map] at hl
      obtain ⟨m, hm, rfl⟩ := Option.map_eq_some_iff.1 hl
      simpa [isBlankLine_drop (Nat.min_le_left _ _)] using hhead m hm
    · intro l hl
      rw [List.getLast?_map] at hl
      obtain ⟨m, hm, rfl⟩ := Option.map_eq_some_iff.1 hl
      simpa [isBlankLine_drop (Nat.min_le_left _ _)] using hlast m hm

/-! ## Indented texts -/

/-- Puts spaces after every line feed. -/
def indent (k : Nat) (cs : List Char) : List Char :=
  cs.flatMap fun c => if c = '\n' then '\n' :: spaces k else [c]

/-- What stands between the quotes when a text is printed with `k` spaces. -/
def blockContent (k : Nat) (cs : List Char) : List Char := indent k ('\n' :: (cs ++ ['\n']))

@[simp] theorem indent_append (k : Nat) (cs ds : List Char) :
    indent k (cs ++ ds) = indent k cs ++ indent k ds := List.flatMap_append

theorem indent_cons (k : Nat) {c : Char} (cs : List Char) (h : c ≠ '\n') :
    indent k (c :: cs) = c :: indent k cs := by simp [indent, h]

theorem indent_feed (k : Nat) (cs : List Char) :
    indent k ('\n' :: cs) = '\n' :: (spaces k ++ indent k cs) := by simp [indent]

theorem indent_inj {k : Nat} {cs ds : List Char} (h : indent k cs = indent k ds) : cs = ds := by
  induction cs generalizing ds with
  | nil =>
    cases ds with
    | nil => rfl
    | cons d ds => by_cases hd : d = '\n' <;> simp [indent, hd] at h
  | cons c cs ih =>
    cases ds with
    | nil => by_cases hc : c = '\n' <;> simp [indent, hc] at h
    | cons d ds =>
      by_cases hc : c = '\n'
      · by_cases hd : d = '\n'
        · rw [hc, hd, indent_feed, indent_feed] at h
          rw [hc, hd, ih (List.append_cancel_left (List.cons.inj h).2)]
        · rw [hc, indent_feed, indent_cons k ds hd] at h
          exact absurd (List.cons.inj h).1.symm hd
      · by_cases hd : d = '\n'
        · rw [hd, indent_feed, indent_cons k cs hc] at h
          exact absurd (List.cons.inj h).1 hc
        · rw [indent_cons k cs hc, indent_cons k ds hd] at h
          obtain ⟨rfl, htail⟩ := List.cons.inj h
          rw [ih htail]

theorem indent_of_notMem (k : Nat) {cs : List Char} (h : '\n' ∉ cs) : indent k cs = cs := by
  induction cs with
  | nil => rfl
  | cons c cs ih =>
    obtain ⟨hc, hcs⟩ := not_or.1 (mt List.mem_cons.2 h)
    rw [indent_cons k cs (Ne.symm hc), ih hcs]

theorem indent_line (k : Nat) {l : List Char} (h : IsLine l) : indent k l = l :=
  indent_of_notMem k fun hfeed => nomatch h '\n' hfeed

theorem indent_zero (cs : List Char) : indent 0 cs = cs := by
  induction cs with
  | nil => rfl
  | cons c cs ih =>
    by_cases hc : c = '\n'
    · rw [hc, indent_feed, ih]
      rfl
    · rw [indent_cons 0 cs hc, ih]

/-- Spaces that are put after a line feed stay when more are put in front of them. -/
theorem indent_indent (j k : Nat) (cs : List Char) :
    indent j (indent k cs) = indent (j + k) cs := by
  induction cs with
  | nil => rfl
  | cons c cs ih =>
    by_cases hc : c = '\n'
    · have hspaces : indent j (spaces k) = spaces k := indent_of_notMem j (by simp [spaces])
      have hsum : spaces (j + k) = spaces j ++ spaces k := List.replicate_add ..
      rw [hc, indent_feed, indent_feed, indent_feed, indent_append, hspaces, ih, hsum,
        List.append_assoc]
    · rw [indent_cons k cs hc, indent_cons j _ hc, indent_cons (j + k) cs hc, ih]

/-- After the first line every line is indented. -/
theorem indent_joinLines (k : Nat) {l : List Char} {ls : List (List Char)} (hl : IsLine l)
    (hls : ∀ l ∈ ls, IsLine l) :
    indent k (joinLines (l :: ls)) = joinLines (l :: ls.map (spaces k ++ ·)) := by
  induction ls generalizing l with
  | nil => simp [indent_line k hl]
  | cons m ls ih =>
    obtain ⟨hm, hls⟩ := List.forall_mem_cons.1 hls
    have hfirst : joinLines ((spaces k ++ m) :: ls.map (spaces k ++ ·)) =
        spaces k ++ joinLines (m :: ls.map (spaces k ++ ·)) := by
      cases ls <;> simp
    rw [joinLines_cons_cons, indent_append, indent_line k hl, indent_feed, ih hm hls,
      List.map_cons, joinLines_cons_cons, hfirst]

theorem blockContent_joinLines (k : Nat) {ls : List (List Char)} (hne : ls ≠ [])
    (hls : ∀ l ∈ ls, IsLine l) :
    blockContent k (joinLines ls) =
      joinLines ([] :: (ls.map (spaces k ++ ·) ++ [spaces k])) := by
  have hjoin : '\n' :: (joinLines ls ++ ['\n']) = joinLines ([] :: (ls ++ [[]])) := by
    clear hls
    induction ls with
    | nil => exact absurd rfl hne
    | cons l ls ih =>
      cases ls with
      | nil => simp
      | cons m ls => simpa using ih (List.cons_ne_nil m ls)
  have hlines : ∀ l ∈ ls ++ [[]], IsLine l := by
    intro l hl
    rcases List.mem_append.1 hl with hl | hl
    · exact hls l hl
    · rw [List.mem_singleton.1 hl]
      exact isLine_nil
  rw [blockContent, hjoin, indent_joinLines k isLine_nil hlines]
  simp

/-! ## Texts that come back -/

/-- The lines of a text that are not blank have no common indent beside the one
they are printed with. Without an indent lines at the margin do not count, so
there no line may have one of its own. -/
def KeepsIndent (k : Nat) (cs : List Char) : Prop :=
  if k = 0 then ∀ l ∈ splitLines cs, isBlankLine l = false → indentOf l = 0
  else cs = [] ∨ ∃ l ∈ splitLines cs, isBlankLine l = false ∧ indentOf l = 0

section Lines
variable {k : Nat} {ls : List (List Char)}

theorem mem_indents_blockContent {n : Nat} :
    n ∈ indents ([] :: (ls.map (spaces k ++ ·) ++ [spaces k])) ↔
      ∃ l ∈ ls, isBlankLine l = false ∧ 0 < n ∧ k + indentOf l = n := by
  rw [mem_indents, List.drop_one, List.tail_cons]
  constructor
  · rintro ⟨l, hl, hb, hn, rfl⟩
    rcases List.mem_append.1 hl with hl | hl
    · obtain ⟨m, hm, rfl⟩ := List.mem_map.1 hl
      rw [isBlankLine_spaces] at hb
      exact ⟨m, hm, hb, hn, (indentOf_spaces k m).symm⟩
    · rw [List.mem_singleton.1 hl, isBlankLine_replicate] at hb
      cases hb
  · rintro ⟨l, hl, hb, hn, rfl⟩
    exact ⟨spaces k ++ l, List.mem_append_left _ (List.mem_map_of_mem hl),
      by rwa [isBlankLine_spaces], hn, indentOf_spaces k l⟩

theorem layOut_blockContent (hhead : ∀ l ∈ ls.head?, isBlankLine l = false)
    (hlast : ∀ l ∈ ls.getLast?, isBlankLine l = false) :
    layOut ([] :: (ls.map (spaces k ++ ·) ++ [spaces k])) = ls.map fun l =>
      (spaces k ++ l).drop (min (k + indentOf l)
        (commonIndent ([] :: (ls.map (spaces k ++ ·) ++ [spaces k])))) := by
  have htrim : trimBlankLines ([] :: (ls.map (spaces k ++ ·) ++ [spaces k])) =
      ls.map (spaces k ++ ·) := by
    rw [trimBlankLines_cons _ rfl, trimBlankLines_concat _ (isBlankLine_replicate k)]
    refine trimBlankLines_eq_self ?_ ?_
    · intro l hl
      rw [List.head?_map] at hl
      obtain ⟨m, hm, rfl⟩ := Option.map_eq_some_iff.1 hl
      rw [isBlankLine_spaces, hhead m hm]
    · intro l hl
      rw [List.getLast?_map] at hl
      obtain ⟨m, hm, rfl⟩ := Option.map_eq_some_iff.1 hl
      rw [isBlankLine_spaces, hlast m hm]
  rw [layOut, htrim, List.map_map]
  simp only [Function.comp_def, indentOf_spaces]

/-- Cutting the common indent gives the line back if it is what was put in front. -/
theorem drop_spaces_eq_self {l : List Char} {n : Nat} (hn : n ≤ k + indentOf l) :
    (spaces k ++ l).drop n = l ↔ n = k := by
  have hle := indentOf_le l
  constructor
  · intro h
    have hlen := congrArg List.length h
    simp only [spaces, List.length_drop, List.length_append, List.length_replicate] at hlen
    omega
  · rintro rfl
    exact List.drop_left' (by simp [spaces])

theorem commonIndent_blockContent (hne : ls ≠ [])
    (hhead : ∀ l ∈ ls.head?, isBlankLine l = false) :
    (∀ l ∈ ls, min (k + indentOf l)
        (commonIndent ([] :: (ls.map (spaces k ++ ·) ++ [spaces k]))) = k) ↔
      if k = 0 then ∀ l ∈ ls, isBlankLine l = false → indentOf l = 0
      else ∃ l ∈ ls, isBlankLine l = false ∧ indentOf l = 0 := by
  obtain ⟨first, hfirst, hfb⟩ : ∃ l ∈ ls, isBlankLine l = false := by
    cases ls with
    | nil => exact absurd rfl hne
    | cons l ls => exact ⟨l, List.mem_cons_self, hhead l rfl⟩
  have hcases := commonIndent_cases ([] :: (ls.map (spaces k ++ ·) ++ [spaces k]))
  generalize commonIndent ([] :: (ls.map (spaces k ++ ·) ++ [spaces k])) = c at hcases
  have hmem : ∀ l ∈ ls, isBlankLine l = false → 0 < k + indentOf l →
      0 < c ∧ c ≤ k + indentOf l := by
    intro l hl hb hpos
    have hin := mem_indents_blockContent.2 ⟨l, hl, hb, hpos, rfl⟩
    rcases hcases with ⟨-, hnil⟩ | ⟨hc, hle⟩
    · rw [hnil] at hin
      cases hin
    · obtain ⟨-, -, -, hcpos, -⟩ := mem_indents_blockContent.1 hc
      exact ⟨hcpos, hle _ hin⟩
  have hattained : c = 0 ∨ ∃ l ∈ ls, isBlankLine l = false ∧ 0 < c ∧ k + indentOf l = c := by
    rcases hcases with ⟨hc, -⟩ | ⟨hc, -⟩
    · exact .inl hc
    · exact .inr (mem_indents_blockContent.1 hc)
  by_cases hk : k = 0
  · subst hk
    rw [if_pos rfl]
    constructor
    · intro h l hl hb
      by_contra hne
      have hpos := hmem l hl hb (by omega)
      have := h l hl
      omega
    · intro h l hl
      rcases hattained with hc | ⟨m, hm, hb, hpos, hc⟩
      · omega
      · have := h m hm hb
        omega
  · rw [if_neg hk]
    have hpos := hmem first hfirst hfb (by omega)
    constructor
    · intro h
      obtain ⟨m, hm, hb, -, hc⟩ := hattained.resolve_left (by omega)
      have := h m hm
      exact ⟨m, hm, hb, by omega⟩
    · rintro ⟨m, hm, hb, hi⟩ l hl
      have hle := (hmem m hm hb (by omega)).2
      obtain ⟨n, -, -, -, hc⟩ := hattained.resolve_left (by omega)
      omega

end Lines

/-- A laid out text that is printed with `k` spaces comes back if and only if the
spaces are all that its lines have in common. -/
theorem dedent_blockContent_iff (k : Nat) {cs : List Char} (h : IsLaidOut cs) :
    dedent (escapeTriples (blockContent k cs)) = cs ↔ KeepsIndent k cs := by
  rcases h with rfl | ⟨ls, rfl, hne, hls, hhead, hlast⟩
  · have hempty : dedent (escapeTriples (blockContent k [])) = [] := by
      have hcontent : blockContent k [] = joinLines [[], spaces k, spaces k] := by
        simp [blockContent, indent]
      have hlines : ∀ l ∈ [[], spaces k, spaces k], IsLine l := by
        have hspaces := isLine_spaces (k := k) isLine_nil
        rw [List.append_nil] at hspaces
        simp [hspaces, isLine_nil]
      have hblank := isBlankLine_replicate k
      rw [hcontent, dedent_escapeTriples (List.cons_ne_nil _ _) hlines, layOut,
        trimBlankLines_cons _ rfl, trimBlankLines_cons _ hblank, trimBlankLines_cons _ hblank]
      rfl
    simp [hempty, KeepsIndent, splitLines, isBlankLine]
  · have hlines : ∀ l ∈ [] :: (ls.map (spaces k ++ ·) ++ [spaces k]), IsLine l := by
      have hspaces := isLine_spaces (k := k) isLine_nil
      rw [List.append_nil] at hspaces
      simp only [List.forall_mem_cons, List.forall_mem_append, List.forall_mem_map]
      exact ⟨isLine_nil, fun l hl => isLine_spaces (hls l hl), hspaces, by simp⟩
    have hfirst : joinLines ls ≠ [] := by
      intro hnil
      have hsplit := splitLines_joinLines hne hls
      rw [hnil, splitLines] at hsplit
      have hb := hhead [] (by rw [← hsplit]; rfl)
      cases hb
    have hfixed : ∀ f : List Char → List Char, ls.map f = ls ↔ ∀ l ∈ ls, f l = l := fun f => by
      simpa using List.map_inj_left (f := f) (g := id) (l := ls)
    rw [blockContent_joinLines k hne hls, dedent_escapeTriples (List.cons_ne_nil _ _) hlines,
      layOut_blockContent hhead hlast, joinLines_inj (by simpa using hne) hne ?_ hls, hfixed]
    · simp only [drop_spaces_eq_self (Nat.min_le_left _ _), commonIndent_blockContent hne hhead,
        KeepsIndent, splitLines_joinLines hne hls, hfirst, false_or]
    · intro l hl
      obtain ⟨m, hm, rfl⟩ := List.mem_map.1 hl
      exact isLine_drop (isLine_spaces (hls m hm)) _

/-! ## The literal -/

/-- The literal of a text that is printed with `k` spaces. -/
def blockLiteral (k : Nat) (cs : List Char) : List Char :=
  tripleQuote ++ (escapeTriples (blockContent k cs) ++ tripleQuote)

theorem indent_escapeTriples (k : Nat) (cs : List Char) :
    indent k (escapeTriples cs) = escapeTriples (indent k cs) := by
  fun_induction escapeTriples cs with
  | case1 cs ih => simp [indent_cons, escapeTriples, ih]
  | case2 c cs hno ih =>
    by_cases hc : c = '\n'
    · subst hc
      have hspaces : ∀ n ds, escapeTriples (spaces n ++ ds) = spaces n ++ escapeTriples ds := by
        intro n ds
        induction n with
        | zero => rfl
        | succ n ihn =>
          simp only [spaces, List.replicate_succ, List.cons_append] at ihn ⊢
          rw [escapeTriples_cons _ (by simp), ihn]
      rw [indent_feed, indent_feed, ih, escapeTriples_cons _ (by simp), hspaces]
    · rw [indent_cons k _ hc, indent_cons k _ hc, escapeTriples_cons, ih]
      -- indenting puts no quote next to another
      rintro rfl ds hds
      have hquote : ∀ es fs, indent k es = '"' :: fs → ∃ gs, es = '"' :: gs ∧ indent k gs = fs := by
        intro es fs h
        cases es with
        | nil => cases h
        | cons e es =>
          by_cases he : e = '\n'
          · rw [he, indent_feed] at h
            cases h
          · rw [indent_cons k es he] at h
            obtain ⟨rfl, hfs⟩ := List.cons.inj h
            exact ⟨es, rfl, hfs⟩
      obtain ⟨es, rfl, hes⟩ := hquote cs _ hds
      obtain ⟨fs, rfl, -⟩ := hquote es _ hes
      exact hno fs rfl rfl
  | case3 => rfl

theorem indent_quoteBlock (k : Nat) (cs : List Char) :
    indent k (quoteBlock cs) = blockLiteral k cs := by
  have hquotes : indent k tripleQuote = tripleQuote := by simp [tripleQuote, indent]
  have hfeed : escapeTriples ('\n' :: (cs ++ ['\n'])) = '\n' :: (escapeTriples cs ++ ['\n']) := by
    rw [escapeTriples_cons _ (by simp), escapeTriples_append]
    rfl
  rw [blockLiteral, blockContent, ← indent_escapeTriples, hfeed, quoteBlock, indent_append, hquotes]
  have hsplit : '\n' :: (escapeTriples cs ++ '\n' :: tripleQuote) =
      '\n' :: (escapeTriples cs ++ ['\n']) ++ tripleQuote := by simp
  rw [hsplit, indent_append, hquotes]

theorem isBlock_blockLiteral (k : Nat) (cs : List Char) : isBlock (blockLiteral k cs) = true :=
  List.isPrefixOf_iff_prefix.2 (List.prefix_append _ _)

/-- What is decoded of a block string stands between its quotes. -/
theorem decode_block (content : List Char) :
    decode (tripleQuote ++ (content ++ tripleQuote)) = .ok (dedent content) := by
  simp only [tripleQuote, List.cons_append, List.nil_append, decode]
  rw [show ['"', '"', '"'] = tripleQuote from rfl, dropSuffix_append]

theorem decode_blockLiteral (k : Nat) (cs : List Char) :
    decode (blockLiteral k cs) = .ok (dedent (escapeTriples (blockContent k cs))) :=
  decode_block _

theorem blockContent_concat (k : Nat) (cs : List Char) :
    blockContent k cs = indent k ('\n' :: cs) ++ '\n' :: spaces k := by
  rw [blockContent, ← List.cons_append, indent_append, indent_feed k []]
  simp [indent]

/-- The indentation can be told from the literal, and the text too. -/
theorem blockLiteral_inj {k m : Nat} {cs ds : List Char}
    (h : blockLiteral k cs = blockLiteral m ds) : k = m ∧ cs = ds := by
  have hcontent : blockContent k cs = blockContent m ds := by
    have hescaped := List.append_cancel_right (List.append_cancel_left h)
    rw [← unescapeTriples_escapeTriples (blockContent k cs), hescaped,
      unescapeTriples_escapeTriples]
  rw [blockContent_concat, blockContent_concat] at hcontent
  have hspaces : ∀ n es, (es ++ '\n' :: spaces n).reverse.takeWhile (· == ' ') = spaces n := by
    intro n es
    rw [List.reverse_append, List.reverse_cons, spaces, List.reverse_replicate, List.append_assoc,
      List.takeWhile_append_of_pos (by simp)]
    simp
  have hk : spaces k = spaces m := by
    rw [← hspaces k (indent k ('\n' :: cs)), hcontent, hspaces]
  obtain rfl : k = m := by simpa [spaces] using congrArg List.length hk
  refine ⟨rfl, indent_inj (k := k) ?_⟩
  have hfeed := List.append_cancel_right hcontent
  rw [indent_feed, indent_feed] at hfeed
  exact List.append_cancel_left (List.cons.inj hfeed).2

end QueryDoc.StringLiteral

/-! ## Scanning -/

namespace QueryDoc.Scan
open StringLiteral

/-- The last character, if there is one, does not run into the closing quotes. -/
def Closes (cs : List Char) : Prop := ∀ c ∈ cs.getLast?, c ≠ '"' ∧ c ≠ '\\'

theorem Closes.tail {c : Char} {cs : List Char} (h : Closes (c :: cs)) : Closes cs :=
  fun d hd => h d (List.mem_getLast?_cons hd)

/-- A quote in front of what closes the literal belongs to the text. -/
theorem quote_of_escaped {cs rest ds : List Char} (hcs : Closes cs) (hne : cs ≠ [])
    (h : escapeTriples cs ++ (tripleQuote ++ rest) = '"' :: ds) :
    ∃ es, cs = '"' :: es ∧ Closes es ∧ es ≠ [] ∧
      ds = escapeTriples es ++ (tripleQuote ++ rest) ∧ ∀ fs, es ≠ '"' :: '"' :: fs := by
  cases he : escapeTriples cs with
  | nil =>
    have hnil := congrArg unescapeTriples he
    rw [unescapeTriples_escapeTriples] at hnil
    exact absurd hnil hne
  | cons e es' =>
    rw [he] at h
    obtain ⟨rfl, hds⟩ := List.cons.inj h
    obtain ⟨es, rfl, rfl, hno⟩ := quote_of_escapeTriples he
    refine ⟨es, rfl, hcs.tail, ?_, hds.symm, hno⟩
    rintro rfl
    exact (hcs '"' rfl).1 rfl

theorem block_escapeTriples {cs : List Char} (rest : List Char) (hcs : Closes cs) :
    block (escapeTriples cs ++ (tripleQuote ++ rest)) =
      ⟨.string, escapeTriples cs ++ tripleQuote, rest⟩ := by
  fun_induction escapeTriples cs with
  | case1 cs ih =>
    simp only [List.cons_append, block, ih hcs.tail.tail.tail, push]
  | case2 c cs hno ih =>
    rw [List.cons_append, block, ih hcs.tail]
    · rfl
    · rintro ds rfl hds
      by_cases hne : cs = []
      · subst hne
        exact (hcs '\\' rfl).2 rfl
      · obtain ⟨es, rfl, hes, hne1, hds1, hno1⟩ := quote_of_escaped hcs.tail hne hds
        obtain ⟨fs, rfl, hfs, hne2, hds2, -⟩ := quote_of_escaped hes hne1 hds1.symm
        obtain ⟨gs, rfl, -⟩ := quote_of_escaped hfs hne2 hds2.symm
        exact hno1 gs rfl
    · rintro ds rfl hds
      by_cases hne : cs = []
      · subst hne
        exact (hcs '"' rfl).1 rfl
      · obtain ⟨es, rfl, hes, hne1, hds1, -⟩ := quote_of_escaped hcs.tail hne hds
        obtain ⟨fs, rfl, -⟩ := quote_of_escaped hes hne1 hds1.symm
        exact hno fs rfl rfl
  | case3 => rfl

theorem closes_blockContent (k : Nat) (cs : List Char) : Closes (blockContent k cs) := by
  intro c hc
  rw [blockContent_concat] at hc
  have hmem : c ∈ '\n' :: spaces k := by
    rw [List.getLast?_append, List.getLast?_cons, Option.some_or, ← List.getLast?_cons] at hc
    exact List.mem_of_getLast? hc
  rcases List.mem_cons.1 hmem with rfl | hmem
  · decide
  · rw [List.eq_of_mem_replicate hmem]
    decide

/-- A block literal ends where it was closed. -/
theorem next_blockLiteral (k : Nat) (cs rest : List Char) :
    ∃ more, blockLiteral k cs ++ rest = '"' :: more ∧
      next '"' more = ⟨.string, blockLiteral k cs, rest⟩ := by
  refine ⟨'"' :: '"' :: (escapeTriples (blockContent k cs) ++ (tripleQuote ++ rest)), ?_, ?_⟩
  · simp [blockLiteral, tripleQuote]
  · have hnext : next '"' ('"' :: '"' ::
        (escapeTriples (blockContent k cs) ++ (tripleQuote ++ rest))) =
        (((block (escapeTriples (blockContent k cs) ++ (tripleQuote ++ rest))).push '"').push
          '"').push '"' := rfl
    rw [hnext, block_escapeTriples rest (closes_blockContent k cs)]
    rfl

end QueryDoc.Scan
