import QueryDoc.Proofs.Grammar.Soundness
import QueryDoc.Proofs.Grammar.Words
import QueryDoc.Proofs.Lexical.Tracking

/-!
# One token of lookahead

Given are the language of a production and the language of what may follow it. A
parser settles the production if looking one token ahead is enough for it: either
it takes a word of the production, which then is the only one that fits the tokens
taken and the token after them, or it fails at a token such that the tokens before
it start a word and the token itself cannot come next. In both cases it has seen
nothing of the tokens behind.

Faults that concern a construct as a whole, the nesting and what must not be empty,
are set apart; of these only the place is said. The notes of a fault point at
nothing but what a note of a token points at.

There is one rule for each way in which parsers are put together. What the rules ask
for are facts about first tokens.
-/
namespace QueryDoc

/-- The cause lies in one token, not in a construct as a whole. -/
def Cause.blamesToken : Cause → Bool
  | .empty _ => false
  | .tooDeep => false
  | _ => true

/-- The end of the input is still to come. -/
def Cursor.Ends (c : Cursor) : Prop := .endOfInput ∈ c.kinds

abbrev kindsOf (tokens : List Token) : List TokenKind := tokens.map Token.kind

/-- What the notes of the fault point at is pointed at by a note of the token. -/
def Fault.Quotes (f : Fault) (kind : TokenKind) : Prop :=
  ∀ n ∈ f.cause.notes ++ f.remarks, ∀ s ∈ n.span, s ∈ kind.noteSpans

/-- The fault starts where one of the tokens starts and stops where one stops, and its
notes point at what notes of the tokens point at. -/
structure Fault.StandsIn (f : Fault) (tokens : List Token) : Prop where
  start : ∃ t ∈ tokens, f.span.start = t.span.start
  stop : ∃ t ∈ tokens, f.span.stop = t.span.stop
  notes : ∀ n ∈ f.cause.notes ++ f.remarks, ∀ s ∈ n.span, ∃ t ∈ tokens, s ∈ t.kind.noteSpans

theorem Fault.StandsIn.mono {f : Fault} {ts us : List Token} (h : f.StandsIn ts) (hsub : ts ⊆ us) :
    f.StandsIn us where
  start := h.start.imp fun _ ht => ⟨hsub ht.1, ht.2⟩
  stop := h.stop.imp fun _ ht => ⟨hsub ht.1, ht.2⟩
  notes n hn s hs := (h.notes n hn s hs).imp fun _ ht => ⟨hsub ht.1, ht.2⟩

namespace Parser
open Grammar Computability

variable {β γ : Type}

/-- What running the parser of a production comes to: `P` is the language of the
production, `F` that of what may follow it. -/
inductive Outcome (P F : Language TokenKind) (p : Parser β) (c : Cursor) : Prop
  | took (taken rest : List Token) (x : β) (last : Option Position)
      (split : c.tokens = taken ++ rest)
      (run : ∀ others, others.head? = rest.head? →
        p ⟨taken ++ others, c.last⟩ = .ok (x, ⟨others, last⟩))
      (word : kindsOf taken ∈ P) (ends : .endOfInput ∈ kindsOf rest)
      (only : ∀ us ∈ P, ∀ vs ∈ F, ∀ ks, us ++ vs = kindsOf taken ++ ks →
        ks.head? = (kindsOf rest).head? → us = kindsOf taken)
  | blamed (taken rest : List Token) (t : Token) (fault : Fault)
      (split : c.tokens = taken ++ t :: rest)
      (run : ∀ others, p ⟨taken ++ t :: others, c.last⟩ = .error fault)
      (span : fault.span = t.span)
      (viable : ∃ more, kindsOf taken ++ more ∈ P)
      (dead : ∀ us ∈ P, ∀ vs ∈ F, ∀ more, us ++ vs ≠ kindsOf taken ++ t.kind :: more)
      (atEnd : ∀ expected, fault.cause = .unexpectedEnd expected → t.kind = .endOfInput)
      (notes : fault.Quotes t.kind)
  | setApart (fault : Fault) (run : p c = .error fault)
      (cause : fault.cause.blamesToken = false) (place : fault.StandsIn c.tokens)

/-- One token of lookahead is enough for the parser of the production `P`, where the
words of `F` may follow. -/
def Settles (P F : Language TokenKind) (p : Parser β) (c : Cursor) : Prop :=
  c.Ends → Outcome P F p c

/-- A step that takes no token and sees the next one only. -/
def Peeks (p : Parser β) (c : Cursor) (x : β) : Prop :=
  ∀ others, others.head? = c.tokens.head? → p ⟨others, c.last⟩ = .ok (x, ⟨others, c.last⟩)

/-- No word starts with the next token. -/
def Bars (L : Language TokenKind) (c : Cursor) : Prop := ∀ ts ∈ L, ts.head? ≠ c.kinds.head?

/-! ## First tokens -/

section First
variable {L M : Language TokenKind} {c : Cursor} {ps : List Punctuator} {p : Punctuator}

theorem exists_next (hc : c.Ends) : ∃ t rest, c.tokens = t :: rest := by
  cases h : c.tokens with
  | nil => simp [Cursor.Ends, Cursor.kinds, h] at hc
  | cons t rest => exact ⟨t, rest, rfl⟩

theorem Bars.add (hL : Bars L c) (hM : Bars M c) : Bars (L + M) c := by
  rintro ts (ht | ht)
  · exact hL ts ht
  · exact hM ts ht

theorem Bars.single_mul {sort : TokenKind → Prop}
    (h : ∀ t, c.kinds.head? = some t → ¬ sort t) : Bars (single sort * L) c := by
  intro ts ht heq
  obtain ⟨t, hsort, us, -, rfl⟩ := mem_single_mul.1 ht
  exact h t heq.symm hsort

theorem Bars.single_mul_mul {sort : TokenKind → Prop}
    (h : ∀ t, c.kinds.head? = some t → ¬ sort t) : Bars (single sort * L * M) c := by
  rw [mul_assoc]
  exact .single_mul h

theorem bars_names (hc : c.kinds.head? = some (.punctuator p)) : Bars (names * L) c := by
  refine .single_mul fun t ht hname => ?_
  obtain ⟨text, htext⟩ := hname
  obtain rfl := Option.some.inj (ht.symm.trans hc)
  cases htext

theorem Bars.of_leads (h : Leads ps L) (hc : ∀ p ∈ ps, c.kinds.head? ≠ some (.punctuator p)) :
    Bars L c := by
  intro ts ht heq
  obtain ⟨p, hp, hhead⟩ := h ts ht
  exact hc p hp (heq.symm.trans hhead)

theorem Bars.of_shuns (h : Shuns ps L) (hp : p ∈ ps)
    (hc : c.kinds.head? = some (.punctuator p)) : Bars L c := by
  intro ts ht heq
  exact h ts ht p hp (heq.trans hc)

end First

/-! ## Steps without a token -/

section Peeks
variable {c : Cursor}

theorem Peeks.run {p : Parser β} {x : β} (h : Peeks p c x) : p c = .ok (x, c) :=
  h c.tokens rfl

theorem kinds_head {others : List Token} (h : others.head? = c.tokens.head?) :
    (Cursor.mk others c.last).kinds.head? = c.kinds.head? := by
  simp only [Cursor.kinds, List.head?_map, h]

theorem peeks_nextKind (c : Cursor) : Peeks nextKind c c.kinds.head? := by
  intro others h
  rw [nextKind_run, kinds_head h]

theorem peeks_nextIs (p : Punctuator) (c : Cursor) :
    Peeks (nextIs p) c (c.kinds.head? == some (.punctuator p)) := by
  intro others h
  rw [nextIs_run, kinds_head h]

theorem peeks_nextIsKeyword (word : String) (c : Cursor) :
    Peeks (nextIsKeyword word) c (c.kinds.head? == some (.name word)) := by
  intro others h
  rw [nextIsKeyword_run, kinds_head h]

theorem peeks_atEnd (c : Cursor) : Peeks atEnd c (endsHere c.kinds) := by
  intro others h
  rw [atEnd_run, endsHere, kinds_head h, endsHere]

theorem peeks_nextSpan (c : Cursor) : ∃ s, Peeks nextSpan c s := by
  cases h : c.tokens with
  | nil =>
    refine ⟨.emptyAt (c.last.getD .zero), fun others ho => ?_⟩
    obtain rfl : others = [] := by simpa [h] using ho
    rfl
  | cons t rest =>
    refine ⟨t.span, fun others ho => ?_⟩
    obtain ⟨more, rfl⟩ := List.head?_eq_some_iff.1 (ho.trans (by rw [h]; rfl))
    rfl

theorem peeks_spanFrom (start : Position) (c : Cursor) :
    Peeks (spanFrom start) c ⟨start, c.last.getD start⟩ := fun _ _ => rfl

end Peeks

/-! ## The rules -/

section Rules
variable {P Q F : Language TokenKind} {c : Cursor}

theorem bind_error {p : Parser β} {f : β → Parser γ} {fault : Fault}
    (h : p c = .error fault) : (p >>= f) c = .error fault := by
  simp only [bind, StateT.bind, h, Except.bind]

theorem Settles.peek {p : Parser β} {x : β} (hp : Peeks p c x) : Settles 1 F p c := by
  intro hc
  refine .took [] c.tokens x c.last rfl hp Language.nil_mem_one hc ?_
  intro us hus vs _ ks _ _
  exact (Language.mem_one us).1 hus

theorem Settles.pure (x : β) : Settles 1 F (Pure.pure x) c := .peek fun _ _ => rfl

theorem Settles.look {p : Parser β} {f : β → Parser γ} {x : β} (hp : Peeks p c x)
    (hf : Settles P F (f x) c) : Settles P F (p >>= f) c := by
  intro hc
  cases hf hc with
  | took taken rest y last split run word ends only =>
    refine .took taken rest y last split (fun others ho => ?_) word ends only
    have hhead : (taken ++ others).head? = c.tokens.head? := by
      rw [split, List.head?_append, List.head?_append, ho]
    rw [bind_ok (hp _ hhead)]
    exact run others ho
  | blamed taken rest t fault split run span viable dead atEnd notes =>
    refine .blamed taken rest t fault split (fun others => ?_) span viable dead atEnd notes
    have hhead : (taken ++ t :: others).head? = c.tokens.head? := by
      rw [split, List.head?_append, List.head?_append, List.head?_cons, List.head?_cons]
    rw [bind_ok (hp _ hhead)]
    exact run others
  | setApart fault run cause place =>
    exact .setApart fault (by rw [bind_ok hp.run, run]) cause place

theorem Settles.nextSpan {f : Span → Parser γ} (hf : ∀ s, Settles P F (f s) c) :
    Settles P F (nextSpan >>= f) c := by
  obtain ⟨s, hs⟩ := peeks_nextSpan c
  exact .look hs (hf s)

theorem Settles.spanFrom {start : Position} {f : Span → Parser γ}
    (hf : ∀ s, Settles P F (f s) c) : Settles P F (spanFrom start >>= f) c :=
  .look (peeks_spanFrom start c) (hf _)

/-- What follows the first part is what the second part can start with. -/
theorem Settles.bind [hQ : Spoken Q] {p : Parser β} {f : β → Parser γ}
    (hp : Settles P (Q * F) p c)
    (hf : ∀ x c', p c = .ok (x, c') → Settles Q F (f x) c') :
    Settles (P * Q) F (p >>= f) c := by
  intro hc
  obtain ⟨tokens, before⟩ := c
  cases hp hc with
  | took taken rest x last split run word ends only =>
    simp only at split run
    subst split
    have fits {us vs ws more : List TokenKind} (hus : us ∈ P) (hvs : vs ∈ Q) (hws : ws ∈ F)
        (h : (us ++ vs) ++ ws = kindsOf taken ++ more)
        (hmore : more.head? = (kindsOf rest).head?) :
        us = kindsOf taken ∧ vs ++ ws = more := by
      rw [List.append_assoc] at h
      have hu := only us hus _ (Language.append_mem_mul hvs hws) more h hmore
      exact ⟨hu, List.append_cancel_left (hu ▸ h)⟩
    cases hf x _ (run rest rfl) ends with
    | took taken' rest' y last' split' run' word' ends' only' =>
      simp only at split' run'
      subst split'
      refine .took (taken ++ taken') rest' y last' (List.append_assoc _ _ _).symm
        (fun others ho => ?_) (by simpa using Language.append_mem_mul word word') ends' ?_
      · have hhead : (taken' ++ others).head? = (taken' ++ rest').head? := by
          rw [List.head?_append, List.head?_append, ho]
        simp only [List.append_assoc]
        rw [bind_ok (run _ hhead), run' others ho]
      · rintro _ ⟨us, hus, vs, hvs, rfl⟩ ws hws ks h hks
        have hsplit : us ++ vs ++ ws = kindsOf taken ++ (kindsOf taken' ++ ks) := by
          simpa using h
        obtain ⟨rfl, h'⟩ := fits hus hvs hws hsplit (by simp [List.head?_append, hks])
        rw [only' vs hvs ws hws ks h' hks]
        simp
    | blamed taken' rest' t fault split' run' span viable dead atEnd notes =>
      simp only at split' run'
      subst split'
      obtain ⟨more, hmore⟩ := viable
      refine .blamed (taken ++ taken') rest' t fault (List.append_assoc _ _ _).symm
        (fun others => ?_) span ⟨more, ?_⟩ ?_ atEnd notes
      · have hhead : (taken' ++ t :: others).head? = (taken' ++ t :: rest').head? := by
          rw [List.head?_append, List.head?_append, List.head?_cons, List.head?_cons]
        simp only [List.append_assoc]
        rw [bind_ok (run _ hhead), run' others]
      · rw [kindsOf, List.map_append, List.append_assoc]
        exact Language.append_mem_mul word hmore
      · rintro _ ⟨us, hus, vs, hvs, rfl⟩ ws hws more h
        have hsplit : us ++ vs ++ ws = kindsOf taken ++ (kindsOf taken' ++ t.kind :: more) := by
          simpa using h
        obtain ⟨-, h'⟩ := fits hus hvs hws hsplit (by simp [List.head?_append])
        exact dead vs hvs ws hws more h'
    | setApart fault run' cause place =>
      exact .setApart fault (by rw [bind_ok (run rest rfl), run']) cause
        (place.mono (List.subset_append_right taken rest))
  | blamed taken rest t fault split run span viable dead atEnd notes =>
    obtain ⟨more, hmore⟩ := viable
    obtain ⟨vs, hvs⟩ := hQ.exists_mem
    refine .blamed taken rest t fault split (fun others => bind_error (run others)) span
      ⟨more ++ vs, ?_⟩ ?_ atEnd notes
    · rw [← List.append_assoc]
      exact Language.append_mem_mul hmore hvs
    · rintro _ ⟨us, hus, vs, hvs, rfl⟩ ws hws more h
      exact dead us hus _ (Language.append_mem_mul hvs hws) more
        (by rw [← List.append_assoc]; exact h)
  | setApart fault run cause place =>
    exact .setApart fault (bind_error run) cause place

/-- The second part takes no token. -/
theorem Settles.last {p : Parser β} {f : β → Parser γ} (hp : Settles P F p c)
    (hf : ∀ x c', Settles 1 F (f x) c') : Settles P F (p >>= f) c := by
  have h : Settles (P * 1) F (p >>= f) c := .bind (by rwa [one_mul]) fun x c' _ => hf x c'
  rwa [mul_one] at h

/-- The next token leaves only a part of the language. -/
theorem Settles.narrow {p : Parser β} (hp : Settles Q F p c) (hsub : ∀ us ∈ Q, us ∈ P)
    (hnext : ∀ us ∈ P, ∀ vs ∈ F, (us ++ vs).head? = c.kinds.head? → us ∈ Q) :
    Settles P F p c := by
  intro hc
  have hhead {taken rest : List Token} (split : c.tokens = taken ++ rest) {ks : List TokenKind}
      (hks : ks.head? = (kindsOf rest).head?) :
      (kindsOf taken ++ ks).head? = c.kinds.head? := by
    rw [Cursor.kinds, split, List.map_append, List.head?_append, List.head?_append, hks]
  cases hp hc with
  | took taken rest x last split run word ends only =>
    refine .took taken rest x last split run (hsub _ word) ends ?_
    intro us hus vs hvs ks h hks
    exact only us (hnext us hus vs hvs (h ▸ hhead split hks)) vs hvs ks h hks
  | blamed taken rest t fault split run span viable dead atEnd notes =>
    obtain ⟨more, hmore⟩ := viable
    refine .blamed taken rest t fault split run span ⟨more, hsub _ hmore⟩ ?_ atEnd notes
    intro us hus vs hvs more h
    exact dead us (hnext us hus vs hvs (h ▸ hhead split rfl)) vs hvs more h
  | setApart fault run cause place => exact .setApart fault run cause place

theorem Settles.left {p : Parser β} (hQ : Bars (Q * F) c) (hp : Settles P F p c) :
    Settles (P + Q) F p c := by
  refine hp.narrow (fun us hus => .inl hus) ?_
  rintro us (hus | hus) vs hvs hhead
  · exact hus
  · exact absurd hhead (hQ _ (Language.append_mem_mul hus hvs))

theorem Settles.right {p : Parser β} (hP : Bars (P * F) c) (hp : Settles Q F p c) :
    Settles (P + Q) F p c := by
  rw [add_comm]
  exact .left hP hp

/-- An optional part is there, for what follows it cannot come next. -/
theorem Settles.present {p : Parser β} (hF : Bars F c) (hp : Settles Q F p c) :
    Settles (1 + Q) F p c :=
  .right (by rwa [one_mul]) hp

/-- An optional part, announced by a punctuator of its own. -/
theorem Settles.optional {next : Punctuator} {p q : Parser β} (hQ : Leads [next] Q)
    (hF : Shuns [next] F) (hp : c.kinds.head? = some (.punctuator next) → Settles Q F p c)
    (hq : Settles 1 F q c) :
    Settles (1 + Q) F (nextIs next >>= fun b => if b = true then p else q) c := by
  refine .look (peeks_nextIs next c) ?_
  split
  · rename_i hnext
    have hc : c.kinds.head? = some (.punctuator next) := beq_iff_eq.1 hnext
    exact .present (.of_shuns hF (by simp) hc) (hp hc)
  · rename_i hnext
    have hc : c.kinds.head? ≠ some (.punctuator next) := by simpa using hnext
    exact .left (.of_leads hQ.mul (by simpa using hc)) hq

/-! ## Faults -/

section Faults
variable {cause : Cause} {production : Production} {remarks : List Note} {f : Span → Parser β}

/-- A fault at a token that nothing starts with. -/
theorem Settles.blame [hP : Spoken P]
    (hf : ∀ s c, f s c = .error ⟨cause, production, s, remarks⟩) (hnext : Bars (P * F) c)
    (hend : ∀ expected, cause = .unexpectedEnd expected → c.kinds.head? = some .endOfInput)
    (hnotes : ∀ t, c.kinds.head? = some t →
      ∀ n ∈ cause.notes ++ remarks, ∀ s ∈ n.span, s ∈ t.noteSpans) :
    Settles P F (Parser.nextSpan >>= f) c := by
  intro hc
  obtain ⟨t, rest, htokens⟩ := exists_next hc
  have hhead : c.kinds.head? = some t.kind := by rw [Cursor.kinds, htokens]; rfl
  refine .blamed [] rest t ⟨cause, production, t.span, remarks⟩ htokens (fun others => ?_) rfl
    hP.exists_mem ?_ (fun expected he => ?_) (hnotes t.kind hhead)
  · rw [bind_ok (x := t.span) rfl, hf]
  · intro us hus vs hvs more h
    exact hnext _ (Language.append_mem_mul hus hvs) (by rw [h, hhead]; rfl)
  · simpa [hhead] using hend expected he

theorem Settles.fail [Spoken P] (hnext : Bars (P * F) c)
    (hend : ∀ expected, cause = .unexpectedEnd expected → c.kinds.head? = some .endOfInput)
    (hnotes : ∀ t, c.kinds.head? = some t →
      ∀ n ∈ cause.notes, ∀ s ∈ n.span, s ∈ t.noteSpans) :
    Settles P F (Parser.nextSpan >>= fun s => (Parser.fail cause production s : Parser β)) c :=
  .blame (fun _ _ => rfl) hnext hend (by simpa using hnotes)

theorem unexpectedCause_end {expected wanted : List Expected} {next : Option TokenKind}
    (hnext : next ≠ none) (h : unexpectedCause expected next = .unexpectedEnd wanted) :
    next = some .endOfInput := by
  unfold unexpectedCause at h
  split at h
  · exact absurd rfl hnext
  · rfl
  · cases h
  · cases h

/-- The notes of an unexpected token are those of the token. -/
theorem unexpectedCause_notes {expected : List Expected} {t : TokenKind} {n : Note} {s : Span}
    (hn : n ∈ (unexpectedCause expected (some t)).notes) (hs : s ∈ n.span) : s ∈ t.noteSpans := by
  cases t with
  | error message notes => exact List.mem_filterMap.2 ⟨n, hn, hs⟩
  | _ => cases hn

theorem kinds_head_ne_none (hc : c.Ends) : c.kinds.head? ≠ none := by
  obtain ⟨t, rest, htokens⟩ := exists_next hc
  rw [Cursor.kinds, htokens]
  exact Option.some_ne_none t.kind

theorem Settles.unexpected [Spoken P] {expected : List Expected} (hnext : Bars (P * F) c) :
    Settles P F (unexpected expected production : Parser β) c := by
  intro hc
  refine Settles.look (peeks_nextKind c) (.fail hnext ?_ ?_) hc
  · exact fun wanted h => unexpectedCause_end (kinds_head_ne_none hc) h
  · intro t ht n hn s hs
    rw [ht] at hn
    exact unexpectedCause_notes hn hs

/-- What concerns a construct as a whole has no note that points at anything. -/
theorem notes_of_setApart (hcause : cause.blamesToken = false) :
    ∀ n ∈ cause.notes, n.span = none := by
  cases cause with
  | empty construct => cases construct <;> simp [Cause.notes, Note.help]
  | tooDeep => simp [Cause.notes, Note.help]
  | _ => cases hcause

theorem standsIn_of_setApart {s : Span} {tokens : List Token} (hcause : cause.blamesToken = false)
    (start : ∃ t ∈ tokens, s.start = t.span.start) (stop : ∃ t ∈ tokens, s.stop = t.span.stop) :
    Fault.StandsIn ⟨cause, production, s, []⟩ tokens where
  start := start
  stop := stop
  notes n hn s hs := by
    rw [List.append_nil] at hn
    rw [notes_of_setApart hcause n hn] at hs
    cases hs

/-- A fault that concerns a construct as a whole. -/
theorem Settles.setApart (hf : ∀ s c, f s c = .error ⟨cause, production, s, []⟩)
    (hcause : cause.blamesToken = false) : Settles P F (Parser.nextSpan >>= f) c := by
  intro hc
  obtain ⟨t, rest, htokens⟩ := exists_next hc
  have hspan : Parser.nextSpan c = .ok (t.span, c) := by simp [Parser.nextSpan, htokens]
  have ht : t ∈ c.tokens := by simp [htokens]
  exact .setApart ⟨cause, production, t.span, []⟩ (by rw [bind_ok hspan, hf]) hcause
    (standsIn_of_setApart hcause ⟨t, ht, rfl⟩ ⟨t, ht, rfl⟩)

theorem Settles.tooDeep : Settles P F (tooDeep production : Parser β) c :=
  .setApart (fun _ _ => rfl) rfl

end Faults

/-! ## Tokens -/

theorem Settles.advance {sort : TokenKind → Prop} {t : TokenKind} (ht : c.kinds.head? = some t)
    (hsort : sort t) (hend : t ≠ .endOfInput) : Settles (single sort) F advance c := by
  intro hc
  obtain ⟨⟨tokens⟩, before⟩ := c
  · cases ht
  · rename_i u rest
    obtain rfl : u.kind = t := Option.some.inj ht
    refine .took [u] rest () (some u.span.stop) rfl (fun _ _ => rfl) ⟨_, hsort, rfl⟩ ?_ ?_
    · exact (List.mem_cons.1 hc).resolve_left (Ne.symm hend)
    · rintro _ ⟨v, -, rfl⟩ vs - ks h -
      exact congrArg (fun k => [k]) (List.cons.inj h).1

/-- Taking the next token, whose sort is known, and making something of its span. -/
theorem Settles.take {sort : TokenKind → Prop} {t : TokenKind} {f : Unit → Parser β}
    (ht : c.kinds.head? = some t) (hsort : sort t) (hend : t ≠ .endOfInput)
    (hf : ∀ c', Settles 1 F (f ()) c') : Settles (single sort) F (Parser.advance >>= f) c :=
  .last (.advance ht hsort hend) fun _ c' => hf c'

theorem settles_expect (p : Punctuator) (production : Production) :
    Settles (mark p) F (expect p production) c := by
  refine .look (peeks_nextIs p c) ?_
  split
  · rename_i h
    exact .nextSpan fun s => .take (beq_iff_eq.1 h) rfl (by simp) fun _ => .pure s
  · rename_i h
    refine .unexpected (.single_mul fun t ht heq => ?_)
    simp [ht, heq] at h

theorem settles_expectKeyword (word : String) (production : Production) :
    Settles (token (.name word)) F (expectKeyword word production) c := by
  refine .look (peeks_nextIsKeyword word c) ?_
  split
  · rename_i h
    exact .advance (beq_iff_eq.1 h) rfl (by simp)
  · rename_i h
    refine .unexpected (.single_mul fun t ht heq => ?_)
    simp [ht, heq] at h

theorem bars_end (h : ¬ endsHere c.kinds = true) : Bars (token .endOfInput) c := by
  intro ts ht heq
  obtain rfl := mem_token.1 ht
  simp [endsHere, ← heq] at h

theorem settles_expectEnd (production : Production) :
    Settles 1 (token .endOfInput) (expectEnd production) c := by
  intro hc
  refine Settles.look (peeks_atEnd c) ?_ hc
  split
  · exact .pure ()
  · rename_i h
    exact .unexpected (by rw [one_mul]; exact bars_end h)

/-- A name of a certain sort, where the next token is of that sort if it is a name. -/
theorem settles_nameOf {sort : TokenKind → Prop} (hspoken : Spoken (single sort))
    (production : Production) (hsort : ∀ t, sort t → (t.nameText?).isSome)
    (hnext : ∀ t, c.kinds.head? = some t → (t.nameText?).isSome → sort t) :
    Settles (single sort) F (name production : Parser (Name Span)) c := by
  refine .look (peeks_nextKind c) ?_
  split
  · rename_i text h
    obtain ⟨t, ht, htext⟩ := Option.bind_eq_some_iff.1 h
    refine .nextSpan fun s => .take ht (hnext t ht (by simp [htext])) ?_ fun _ => .pure _
    rintro rfl
    cases htext
  · rename_i h
    refine .unexpected (.single_mul fun t ht hs => ?_)
    have hsome := hsort t hs
    simp [ht] at h
    simp [h] at hsome

theorem settles_name (production : Production) :
    Settles names F (name production : Parser (Name Span)) c :=
  settles_nameOf (inferInstanceAs (Spoken names)) production (fun _ ⟨_, ht⟩ => by simp [ht])
    fun _ _ h => Option.isSome_iff_exists.1 h

theorem settles_fragmentName (production : Production)
    (hnext : c.kinds.head? ≠ some (.name "on")) :
    Settles fragmentNames F (name production : Parser (Name Span)) c := by
  refine settles_nameOf (inferInstanceAs (Spoken fragmentNames)) production
    (fun _ ⟨_, ht, _⟩ => by simp [ht]) fun t ht h => ?_
  obtain ⟨text, htext⟩ := Option.isSome_iff_exists.1 h
  refine ⟨text, htext, ?_⟩
  rintro rfl
  exact hnext (by rw [ht, eq_of_nameText htext])

/-- The token at fault is the string itself, although it is taken before it is
decoded. -/
theorem settles_stringValue {raw : String} (hraw : c.kinds.head? = some (.string raw)) :
    Settles strings F (stringValue raw : Parser (StringValue Span)) c := by
  cases hd : StringLiteral.decode raw.toList with
  | ok cs =>
    refine .nextSpan fun s => .take hraw ⟨raw, cs, rfl, hd⟩ (by simp) fun _ => ?_
    rw [hd]
    exact .pure _
  | error e =>
    intro hc
    obtain ⟨⟨tokens⟩, before⟩ := c
    · cases hraw
    · rename_i t rest
      have ht : t.kind = .string raw := Option.some.inj hraw
      refine .blamed [] rest t ⟨.invalidString e, .stringValue, t.span, []⟩ rfl (fun others => ?_)
        rfl (Spoken.exists_mem (L := strings)) ?_ (by simp) (by simp [Fault.Quotes, Cause.notes])
      · rw [stringValue, bind_ok (x := t.span) rfl, bind_ok (x := ()) rfl, hd]
        rfl
      · rintro us ⟨_, ⟨raw', cs, rfl, hcs⟩, rfl⟩ vs - more h
        obtain ⟨h', -⟩ := List.cons.inj h
        rw [ht, TokenKind.string.injEq] at h'
        rw [h', hd] at hcs
        cases hcs

end Rules

end Parser

end QueryDoc
