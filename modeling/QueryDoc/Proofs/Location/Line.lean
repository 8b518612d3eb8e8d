import QueryDoc.Proofs.Lexical.Tracking
import QueryDoc.Proofs.StringLiteral.Line

/-!
# Places on lines

A position counts the line ends in front of it while the text is read. To show the
line of a position the text is split into lines again, which looks at no position.
Both take a carriage return and a line feed after it for one line end, so the line
with the number that was counted is the one on which the place lies: what stands
after the last line end in front of the place, and what stands up to the next one
behind it. Between the two characters of a line end there is no such place, and at
any other offset there is one at most.
-/
namespace QueryDoc
open StringLiteral

/-- The characters up to the last one that ends a line, none if there is none. -/
def frontLines (cs : List Char) : List Char := cs.rdropWhile fun c => !isLineEnd c

/-- The characters up to the first one that ends a line, all of them if there is none. -/
def firstLine (cs : List Char) : List Char := cs.takeWhile fun c => !isLineEnd c

/-- The characters from the first one on that ends a line. -/
def restLines (cs : List Char) : List Char := cs.dropWhile fun c => !isLineEnd c

/-- What stands around a place in a text: the lines in front of its line, its line up
to the place and from the place on, and the rest of the text, which starts with the
line end. The place is at a character of the line, or at the end of the text. -/
@[ext]
structure LinePlace (text : List Char) (offset : Nat) where
  front : List Char
  before : List Char
  after : List Char
  rest : List Char
  text_eq : text = front ++ (before ++ after) ++ rest
  offset_eq : byteLength (front ++ before) = offset
  isLine : IsLine (before ++ after)
  front_ended : ∀ c ∈ front.getLast?, isLineEnd c = true
  front_whole : front.getLast? = some '\r' → (before ++ after ++ rest).head? ≠ some '\n'
  rest_ended : ∀ c ∈ rest.head?, isLineEnd c = true
  holds : after = [] → rest = []

/-! ## Counting and splitting -/

section Lines
variable {front pre post l rest : List Char}

theorem lineBreaks_append_line (pre : List Char) (h : IsLine l) :
    lineBreaks (pre ++ l) = lineBreaks pre := by
  induction l generalizing pre with
  | nil => rw [List.append_nil]
  | cons c l ih =>
    obtain ⟨hc, hl⟩ := List.forall_mem_cons.1 h
    have hfeed : ¬ (c = '\n' ∧ pre.getLast? = some '\r') := by
      rintro ⟨rfl, -⟩
      cases hc
    rw [List.append_cons, ih (pre ++ [c]) hl, lineBreaks_concat, if_neg hfeed, hc]
    rfl

theorem lineBreaks_pos (hne : front ≠ []) (h : ∀ c ∈ front.getLast?, isLineEnd c = true) :
    0 < lineBreaks front := by
  obtain ⟨ds, c, rfl⟩ := (List.eq_nil_or_concat front).resolve_left hne
  rw [List.concat_eq_append] at h ⊢
  have hc : isLineEnd c = true := h c (by simp)
  rw [lineBreaks_concat, if_pos hc]
  split
  · rename_i hpair
    obtain ⟨es, rfl⟩ := List.getLast?_eq_some_iff.1 hpair.2
    rw [lineBreaks_concat, if_neg fun h => nomatch h.1]
    exact Nat.succ_pos _
  · exact Nat.succ_pos _

theorem getLast?_cons_of_some {c d : Char} {cs : List Char} (h : cs.getLast? = some d) :
    (c :: cs).getLast? = some d := by
  rw [List.getLast?_cons, h]
  rfl

theorem splitLines_end {c : Char} {cs : List Char} (hc : isLineEnd c = true)
    (h : c = '\r' → cs.head? ≠ some '\n') : splitLines (c :: cs) = [] :: splitLines cs := by
  rw [splitLines, if_pos hc]
  rintro more rfl rfl
  exact h rfl rfl

/-- The lines in front are split off one by one, as many as were counted. -/
theorem splitLines_front (ended : ∀ c ∈ front.getLast?, isLineEnd c = true)
    (whole : front.getLast? = some '\r' → post.head? ≠ some '\n') :
    ∃ ls, ls.length = lineBreaks front ∧ splitLines (front ++ post) = ls ++ splitLines post := by
  induction front using lineBreaks.induct with
  | case1 => exact ⟨[], rfl, rfl⟩
  | case2 cs ih =>
    have hcons {c : Char} (h : cs.getLast? = some c) : ('\r' :: '\n' :: cs).getLast? = some c :=
      getLast?_cons_of_some (getLast?_cons_of_some h)
    obtain ⟨ls, hlen, hls⟩ := ih (fun c hc => ended c (hcons hc)) fun h => whole (hcons h)
    refine ⟨[] :: ls, by rw [List.length_cons, hlen, lineBreaks], ?_⟩
    rw [List.cons_append, List.cons_append, splitLines, hls, List.cons_append]
  | case3 c cs hpair hend ih =>
    obtain ⟨ls, hlen, hls⟩ := ih (fun c hc => ended c (getLast?_cons_of_some hc))
      fun h => whole (getLast?_cons_of_some h)
    have hapart : c = '\r' → (cs ++ post).head? ≠ some '\n' := by
      rintro rfl hhead
      cases cs with
      | nil => exact whole rfl hhead
      | cons d ds => exact hpair ds rfl (congrArg (· :: ds) (Option.some.inj hhead))
    refine ⟨[] :: ls, ?_, ?_⟩
    · rw [List.length_cons, hlen, lineBreaks_cons fun h => ?_, if_pos hend]
      obtain ⟨ds, rfl⟩ := List.head?_eq_some_iff.1 h.2
      exact hpair ds h.1 rfl
    · rw [List.cons_append, splitLines_end hend hapart, hls, List.cons_append]
  | case4 c cs hpair hend ih =>
    have hne : cs ≠ [] := by
      rintro rfl
      exact hend (ended c rfl)
    have ended' : ∀ c ∈ cs.getLast?, isLineEnd c = true :=
      fun c hc => ended c (getLast?_cons_of_some hc)
    obtain ⟨ls, hlen, hls⟩ := ih ended' fun h => whole (getLast?_cons_of_some h)
    have hpos := lineBreaks_pos hne ended'
    have hc : isLineEnd c = false := by simpa using hend
    cases ls with
    | nil => exact absurd hlen (Nat.ne_of_lt hpos)
    | cons l ls =>
      refine ⟨(c :: l) :: ls, ?_, ?_⟩
      · rw [lineBreaks_cons fun h => ?_, if_neg hend, ← hlen, List.length_cons, List.length_cons]
        obtain ⟨ds, rfl⟩ := List.head?_eq_some_iff.1 h.2
        exact hpair ds h.1 rfl
      · rw [List.cons_append, splitLines_cons _ hc, hls]
        rfl

theorem splitLines_head (h : IsLine l) (hrest : ∀ c ∈ rest.head?, isLineEnd c = true) :
    (splitLines (l ++ rest))[0]? = some l := by
  induction l with
  | nil =>
    fun_cases splitLines rest with
    | case4 c cs _ hc => exact absurd (hrest c rfl) hc
    | _ => simp [*]
  | cons c l ih =>
    obtain ⟨hc, hl⟩ := List.forall_mem_cons.1 h
    have hhead := ih hl
    rw [List.cons_append, splitLines_cons _ hc]
    cases hs : splitLines (l ++ rest) with
    | nil => exact absurd hs (splitLines_ne_nil _)
    | cons m ms =>
      rw [hs] at hhead
      obtain rfl : m = l := Option.some.inj hhead
      rfl

end Lines

/-! ## The line of a place -/

section Place
variable {pre post l : List Char}

theorem isLine_lastLine (pre : List Char) : IsLine (lastLine pre) := fun c hc => by
  simpa using List.mem_rtakeWhile_imp hc

theorem isLine_firstLine (post : List Char) : IsLine (firstLine post) := fun c hc => by
  simpa using List.mem_takeWhile_imp hc

theorem frontLines_append (pre : List Char) : frontLines pre ++ lastLine pre = pre :=
  List.rdropWhile_append_rtakeWhile

theorem lineBreaks_frontLines (pre : List Char) : lineBreaks (frontLines pre) = lineBreaks pre := by
  rw [← lineBreaks_append_line (frontLines pre) (isLine_lastLine pre), frontLines_append]

theorem frontLines_ended (pre : List Char) :
    ∀ c ∈ (frontLines pre).getLast?, isLineEnd c = true := by
  intro c hc
  have hne : frontLines pre ≠ [] := by
    intro hnil
    rw [hnil] at hc
    cases hc
  have hlast := List.rdropWhile_last_not (fun c => !isLineEnd c) pre hne
  rw [List.getLast?_eq_some_getLast hne] at hc
  obtain rfl := Option.some.inj hc
  simpa [frontLines] using hlast

theorem frontLines_whole (whole : pre.getLast? = some '\r' → post.head? ≠ some '\n') :
    (frontLines pre).getLast? = some '\r' → (lastLine pre ++ post).head? ≠ some '\n' := by
  intro hreturn
  cases hl : lastLine pre with
  | nil =>
    have hpre := frontLines_append pre
    rw [hl, List.append_nil] at hpre
    exact whole (hpre ▸ hreturn)
  | cons c cs =>
    intro hc
    obtain rfl : c = '\n' := Option.some.inj hc
    cases isLine_lastLine pre '\n' (hl ▸ List.mem_cons_self)

theorem restLines_ended (post : List Char) :
    ∀ c ∈ (restLines post).head?, isLineEnd c = true := by
  intro c hc
  have hnot := List.head?_dropWhile_not (fun c => !isLineEnd c) post
  rw [← restLines, hc] at hnot
  simpa using hnot

theorem firstLine_append (post : List Char) : firstLine post ++ restLines post = post :=
  List.takeWhile_append_dropWhile

/-- The line with the number that was counted has the place on it, unless the place lies
within a line end. -/
theorem splitLines_getElem (whole : pre.getLast? = some '\r' → post.head? ≠ some '\n') :
    (splitLines (pre ++ post))[lineBreaks pre]? = some (lastLine pre ++ firstLine post) := by
  obtain ⟨ls, hlen, hls⟩ := splitLines_front (frontLines_ended pre) (frontLines_whole whole)
  have hline : IsLine (lastLine pre ++ firstLine post) :=
    List.forall_mem_append.2 ⟨isLine_lastLine pre, isLine_firstLine post⟩
  rw [← List.append_assoc, frontLines_append] at hls
  rw [lineBreaks_frontLines] at hlen
  rw [hls, List.getElem?_append_right (Nat.le_of_eq hlen), hlen, Nat.sub_self,
    ← splitLines_head hline (restLines_ended post), List.append_assoc, firstLine_append]

/-- A place has no more characters in front of it on its line than the line has. -/
theorem length_lastLine_le (h : (splitLines (pre ++ post))[lineBreaks pre]? = some l) :
    (lastLine pre).length ≤ l.length := by
  by_cases hreturn : pre.getLast? = some '\r'
  · rw [lastLine_of_getLast? hreturn (by decide)]
    exact Nat.zero_le _
  · rw [splitLines_getElem fun h => absurd h hreturn] at h
    rw [← Option.some.inj h, List.length_append]
    exact Nat.le_add_right _ _

/-- A place in front of a character that ends no line. -/
def LinePlace.ofSplit {text : List Char} (h : text = pre ++ post)
    (hpost : ∀ c ∈ post.head?, isLineEnd c = false) : LinePlace text (byteLength pre) where
  front := frontLines pre
  before := lastLine pre
  after := firstLine post
  rest := restLines post
  text_eq := by
    rw [h, List.append_assoc, List.append_assoc, firstLine_append, ← List.append_assoc,
      frontLines_append]
  offset_eq := by rw [frontLines_append]
  isLine := List.forall_mem_append.2 ⟨isLine_lastLine pre, isLine_firstLine post⟩
  front_ended := frontLines_ended pre
  front_whole := by
    rw [List.append_assoc, firstLine_append]
    refine frontLines_whole fun _ hfeed => ?_
    cases hpost '\n' hfeed
  rest_ended := restLines_ended post
  holds := by
    cases post with
    | nil => exact fun _ => rfl
    | cons c cs =>
      intro hnil
      have hc : isLineEnd c = false := hpost c rfl
      simp [firstLine, hc] at hnil

end Place

/-! ## One line for each place -/

theorem frontLines_append_line {front l : List Char}
    (ended : ∀ c ∈ front.getLast?, isLineEnd c = true) (hl : IsLine l) :
    frontLines (front ++ l) = front := by
  induction l using List.reverseRecOn with
  | nil =>
    rw [List.append_nil]
    rcases List.eq_nil_or_concat front with rfl | ⟨cs, c, rfl⟩
    · rfl
    · rw [List.concat_eq_append] at ended ⊢
      have hc : isLineEnd c = true := ended c (by simp)
      exact List.rdropWhile_concat_neg _ _ _ (by simp [hc])
  | append_singleton l c ih =>
    obtain ⟨hl, hc⟩ := List.forall_mem_append.1 hl
    rw [← List.append_assoc, frontLines, List.rdropWhile_concat_pos _ _ _ (by simp [hc c])]
    exact ih hl

theorem firstLine_append_rest {l rest : List Char} (hl : IsLine l)
    (ended : ∀ c ∈ rest.head?, isLineEnd c = true) : firstLine (l ++ rest) = l := by
  have hrest : rest.takeWhile (fun c => !isLineEnd c) = [] := by
    cases rest with
    | nil => rfl
    | cons c cs => rw [List.takeWhile_cons_of_neg (by simp [ended c rfl])]
  rw [firstLine, List.takeWhile_append_of_pos (fun c hc => by simp [hl c hc]), hrest,
    List.append_nil]

namespace LinePlace
variable {text : List Char} {offset : Nat}

theorem takeBytes_eq (p : LinePlace text offset) :
    takeBytes offset text = some (p.front ++ p.before) := by
  have htext : (p.front ++ p.before) ++ (p.after ++ p.rest) = text := by
    simpa only [List.append_assoc] using p.text_eq.symm
  have htake := takeBytes_append (p.front ++ p.before) (p.after ++ p.rest)
  rwa [p.offset_eq, htext] at htake

/-- The offset determines the line and the place on it. -/
theorem unique (p q : LinePlace text offset) : p = q := by
  obtain ⟨hp, hp'⟩ := List.forall_mem_append.1 p.isLine
  obtain ⟨hq, hq'⟩ := List.forall_mem_append.1 q.isLine
  have hpre : p.front ++ p.before = q.front ++ q.before :=
    Option.some.inj (p.takeBytes_eq.symm.trans q.takeBytes_eq)
  have hfront : p.front = q.front := by
    rw [← frontLines_append_line p.front_ended hp, hpre, frontLines_append_line q.front_ended hq]
  have hbefore : p.before = q.before := List.append_cancel_left (hfront ▸ hpre)
  have hpost : p.after ++ p.rest = q.after ++ q.rest := by
    have htext := p.text_eq.symm.trans q.text_eq
    rw [hfront, hbefore] at htext
    simpa only [List.append_assoc, List.append_cancel_left_eq] using htext
  have hafter : p.after = q.after := by
    rw [← firstLine_append_rest hp' p.rest_ended, hpost, firstLine_append_rest hq' q.rest_ended]
  exact LinePlace.ext hfront hbefore hafter (List.append_cancel_left (hafter ▸ hpost))

end LinePlace

end QueryDoc
