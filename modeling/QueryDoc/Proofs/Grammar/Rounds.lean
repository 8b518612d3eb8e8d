import QueryDoc.Proofs.Grammar.Lookahead

/-!
# Loops without their bounds

A loop is given the number of tokens that are left as its bound, which depends on
tokens it has not come to. Since every round takes a token, the bound never matters:
a loop under any bound beyond the tokens left is one round and then the same loop.
So a loop settles a repetition if a round does, given that the rounds after it do.
-/
namespace QueryDoc.Parser
open Grammar Computability

variable {β γ : Type}

/-- Whenever the parser returns, it has taken a token. -/
def Shrinks (p : Parser β) : Prop :=
  ∀ c x c', p c = .ok (x, c') → c'.tokens.length < c.tokens.length

theorem Shrinks.of_yields {p : Parser β} {R : List TokenKind → β → Prop}
    (h : ∀ c, Yields p c R) (hne : ∀ ts x, R ts x → ts ≠ []) : Shrinks p := by
  intro c x c' hp
  obtain ⟨ts, hkinds, hx⟩ := h c x c' hp
  have hlen := congrArg List.length hkinds
  have hpos := List.length_pos_iff.2 (hne ts x hx)
  simp only [Cursor.kinds, List.length_map, List.length_append] at hlen
  omega

/-- The parsers agree wherever fewer tokens are left. -/
def AgreeBelow (p q : Parser γ) (c : Cursor) : Prop :=
  ∀ c', c'.tokens.length < c.tokens.length → p c' = q c'

/-- A loop that goes on by a round, which goes on only after taking a token. -/
structure Rounds (loop : Nat → Parser γ) (round : Parser γ → Parser γ) : Prop where
  next : ∀ n, loop (n + 1) = round (loop n)
  congr : ∀ p q c, AgreeBelow p q c → round p c = round q c

section Rounds
variable {loop : Nat → Parser γ} {round : Parser γ → Parser γ}

theorem Rounds.enough (h : Rounds loop round) (n m : Nat) (c : Cursor)
    (hn : c.tokens.length < n) (hm : c.tokens.length < m) : loop n c = loop m c := by
  induction n generalizing m c with
  | zero => omega
  | succ n ih =>
    cases m with
    | zero => omega
    | succ m =>
      rw [h.next, h.next]
      exact h.congr _ _ c fun c' hc' => ih m c' (by omega) (by omega)

/-- The loop under the bound that it is given. -/
def unbounded (loop : Nat → Parser γ) : Parser γ := do loop ((← remaining) + 1)

theorem unbounded_run (loop : Nat → Parser γ) (c : Cursor) :
    unbounded loop c = loop (c.tokens.length + 1) c :=
  bind_ok (x := c.tokens.length) rfl

theorem Rounds.unfold (h : Rounds loop round) : unbounded loop = round (unbounded loop) := by
  funext c
  rw [unbounded_run, h.next]
  refine h.congr _ _ c fun c' hc' => ?_
  rw [unbounded_run]
  exact h.enough _ _ c' hc' (Nat.lt_succ_self _)

theorem Rounds.settles {P F : Language TokenKind} (h : Rounds loop round)
    (hround : ∀ p c, (∀ c', c'.tokens.length < c.tokens.length → Settles P F p c') →
      Settles P F (round p) c) (c : Cursor) : Settles P F (unbounded loop) c := by
  induction hn : c.tokens.length using Nat.strong_induction_on generalizing c with
  | _ n ih =>
    subst hn
    rw [h.unfold]
    exact hround _ c fun c' hc' => ih _ hc' c' rfl

/-- A loop in front of something else. -/
theorem Settles.repeated {P Q F : Language TokenKind} {c : Cursor} [Spoken Q] {f : γ → Parser β}
    (hloop : Settles P (Q * F) (unbounded loop) c) (hf : ∀ x c', Settles Q F (f x) c') :
    Settles (P * Q) F (remaining >>= fun n => loop (n + 1) >>= f) c := by
  have h : Settles (P * Q) F (unbounded loop >>= f) c := .bind hloop fun x c' _ => hf x c'
  rwa [unbounded, bind_assoc] at h

end Rounds

theorem bind_congr_below {item : Parser β} (hitem : Shrinks item) {f g : β → Parser γ}
    {c : Cursor} (h : ∀ x c', c'.tokens.length < c.tokens.length → f x c' = g x c') :
    (item >>= f) c = (item >>= g) c := by
  cases hi : item c with
  | error e => rw [bind_error hi, bind_error hi]
  | ok r =>
    obtain ⟨x, c'⟩ := r
    rw [bind_ok hi, bind_ok hi]
    exact h x c' (hitem c x c' hi)

theorem cons_congr {p q : Parser (List β)} {c : Cursor} (x : β) (h : p c = q c) :
    (do return x :: (← p) : Parser (List β)) c = (do return x :: (← q) : Parser (List β)) c := by
  simp only [bind, StateT.bind, h]

/-- Words with certain first tokens start with no other punctuator, nor with the end
of the input. -/
theorem Bars.of_starts {L M : Language TokenKind} {allowed : List Punctuator} {c : Cursor}
    (hL : ∀ ts ∈ L, Starts allowed ts)
    (hc : c.kinds.head? = some .endOfInput ∨
      ∃ p, c.kinds.head? = some (.punctuator p) ∧ p ∉ allowed) : Bars (L * M) c := by
  rintro _ ⟨ts, ht, us, -, rfl⟩ heq
  obtain ⟨t, vs, rfl, hend, hallowed⟩ := hL ts ht
  rcases hc with hc | ⟨p, hc, hp⟩
  · exact hend (Option.some.inj (heq.trans hc))
  · exact hp (hallowed p (Option.some.inj (heq.trans hc)))

theorem head_of_endsHere {c : Cursor} (hc : c.Ends) (h : endsHere c.kinds = true) :
    c.kinds.head? = some .endOfInput := by
  unfold endsHere at h
  split at h
  · exact absurd ‹_› (kinds_head_ne_none hc)
  · rename_i k hk
    rw [hk, beq_iff_eq.1 h]

/-! ## The loops of the parser -/

section Loops
variable {item : Parser β} {I F : Language TokenKind} {ps allowed : List Punctuator}

theorem rounds_manyUntil (hshrinks : Shrinks item) (close : Punctuator)
    (production : Production) :
    Rounds (manyUntil close production item) fun next => do
      if ← nextIs close then return []
      else if ← atEnd then unexpected [.literal close.text] production
      else
        let x ← item
        return x :: (← next) where
  next n := rfl
  congr p q c h := by
    rw [bind_ok (nextIs_run close c), bind_ok (nextIs_run close c)]
    split
    · rfl
    · rw [bind_ok (atEnd_run c), bind_ok (atEnd_run c)]
      split
      · rfl
      · exact bind_congr_below hshrinks fun x c' hc' => cons_congr x (h c' hc')

theorem rounds_manyWhile (hshrinks : Shrinks item) (first : Punctuator) :
    Rounds (manyWhile first item) fun next => do
      if ← nextIs first then
        let x ← item
        return x :: (← next)
      else return [] where
  next n := rfl
  congr p q c h := by
    rw [bind_ok (nextIs_run first c), bind_ok (nextIs_run first c)]
    split
    · exact bind_congr_below hshrinks fun x c' hc' => cons_congr x (h c' hc')
    · rfl

theorem rounds_someUntil (hshrinks : Shrinks item) (close : Punctuator) :
    Rounds (someUntil close item) fun next => do
      let x ← item
      if ← nextIs close then return [x]
      else return x :: (← next) where
  next n := rfl
  congr p q c h := by
    refine bind_congr_below hshrinks fun x c' hc' => ?_
    rw [bind_ok (nextIs_run close c'), bind_ok (nextIs_run close c')]
    split
    · rfl
    · exact cons_congr x (h c' hc')

theorem expect_run {p : Punctuator} {production : Production} {t : Token} {rest : List Token}
    {last : Option Position} (ht : t.kind = .punctuator p) :
    expect p production ⟨t :: rest, last⟩ = .ok (t.span, ⟨rest, some t.span.stop⟩) := by
  have hnext : (Cursor.mk (t :: rest) last).kinds.head? = some (.punctuator p) := by
    simp [Cursor.kinds, ht]
  rw [expect, bind_ok (nextIs_run p _), hnext, beq_self_eq_true]
  rfl

/-- What is empty between its delimiters is set apart; it stands from the opening one to the
closing one. -/
theorem settles_nonempty_empty {opening closing : Punctuator} (construct : Construct)
    (production : Production) {P : Language TokenKind} {t u : Token} {rest : List Token}
    {last : Option Position} (ht : t.kind = .punctuator opening)
    (hu : u.kind = .punctuator closing) :
    Settles P F (nonempty opening closing construct production item) ⟨t :: u :: rest, last⟩ := by
  intro _
  refine .setApart ⟨.empty construct, production, ⟨t.span.start, u.span.stop⟩, []⟩ ?_ rfl
    (standsIn_of_setApart rfl ⟨t, by simp, rfl⟩ ⟨u, by simp, rfl⟩)
  have hnext : (Cursor.mk (u :: rest) (some t.span.stop)).kinds.head? =
      some (.punctuator closing) := by
    simp [Cursor.kinds, hu]
  rw [nonempty, bind_ok (expect_run ht), bind_ok (nextIs_run closing _), hnext,
    beq_self_eq_true]
  rfl

/-- Items that settle `I`, whatever may follow them apart from certain punctuators,
which no item starts with. -/
structure SettlesItems (item : Parser β) (I : Language TokenKind)
    (allowed ps : List Punctuator) : Prop where
  settles : ∀ F, Shuns ps F → ∀ c, Settles I F item c
  shrinks : Shrinks item
  starts : ∀ ts ∈ I, Starts allowed ts
  apart : ∀ p ∈ ps, p ∉ allowed

/-- Where the items of a production start, and that they take a token, follows from what
the production derives. -/
theorem SettlesItems.of_production {Q : List TokenKind → γ → Prop} {depth : γ → Nat}
    {room : Nat} {shape : β → γ} (hI : words Q = I) (hstarts : ∀ ts x, Q ts x → Starts allowed ts)
    (hyields : ∀ c, Yields item c (Within Q depth room shape)) (apart : ∀ p ∈ ps, p ∉ allowed)
    (settles : ∀ F, Shuns ps F → ∀ c, Settles I F item c) : SettlesItems item I allowed ps where
  settles := settles
  shrinks := .of_yields hyields fun _ _ h => (hstarts _ _ h.1).ne_nil
  starts := by
    subst hI
    rintro ts ⟨x, h⟩
    exact hstarts ts x h
  apart := apart

variable (hitem : SettlesItems item I allowed ps)
include hitem

theorem SettlesItems.shuns : Shuns ps I := .of_starts hitem.starts hitem.apart

/-- No round starts at a closing punctuator, nor at the end of the input. -/
theorem SettlesItems.bars {M : Language TokenKind} {c : Cursor}
    (hc : c.kinds.head? = some .endOfInput ∨
      ∃ p, c.kinds.head? = some (.punctuator p) ∧ p ∉ allowed) : Bars (I * I∗ * M) c := by
  rw [mul_assoc]
  exact .of_starts hitem.starts hc

theorem SettlesItems.cons {c : Cursor} {next : Parser (List β)} (hF : Shuns ps F)
    (hnext : ∀ c', c'.tokens.length < c.tokens.length → Settles (I∗) F next c') :
    Settles (I * I∗) F (do let x ← item; return x :: (← next)) c :=
  .bind (hitem.settles _ (hitem.shuns.star.mul hF) c) fun x c' hx =>
    .last (hnext c' (hitem.shrinks c x c' hx)) fun _ _ => .pure _

theorem settles_manyUntil [Spoken I] {close : Punctuator} (production : Production)
    (hclose : close ∉ allowed) (hstop : close ∉ ps) (hF : Leads [close] F) (c : Cursor) :
    Settles (I∗) F (unbounded (manyUntil close production item)) c := by
  refine (rounds_manyUntil hitem.shrinks close production).settles (fun next c ih => ?_) c
  rw [← Language.one_add_self_mul_kstar_eq_kstar]
  intro hc
  refine Settles.look (peeks_nextIs close c) ?_ hc
  split
  · rename_i hnext
    exact .left (hitem.bars (.inr ⟨close, beq_iff_eq.1 hnext, hclose⟩)) (.pure [])
  · rename_i hnext
    refine .present (.of_leads hF (by simpa using hnext)) (.look (peeks_atEnd c) ?_)
    split
    · rename_i hend
      exact .unexpected (hitem.bars (.inl (head_of_endsHere hc hend)))
    · exact hitem.cons (hF.shuns_of_notMem hstop) ih

theorem settles_manyWhile {first : Punctuator} (hI : Leads [first] I) (hF : Shuns ps F)
    (hstop : Shuns [first] F) (c : Cursor) :
    Settles (I∗) F (unbounded (manyWhile first item)) c := by
  refine (rounds_manyWhile hitem.shrinks first).settles (fun next c ih => ?_) c
  rw [← Language.one_add_self_mul_kstar_eq_kstar]
  exact .optional hI.mul hstop (fun _ => hitem.cons hF ih) (.pure [])

theorem settles_someUntil {close : Punctuator} (hclose : close ∉ allowed) (hstop : close ∉ ps)
    (hF : Leads [close] F) (c : Cursor) :
    Settles (I * I∗) F (unbounded (someUntil close item)) c := by
  refine (rounds_someUntil hitem.shrinks close).settles (fun next c ih => ?_) c
  refine .bind (hitem.settles _ (hitem.shuns.star.mul (hF.shuns_of_notMem hstop)) c)
    fun x c' hx => ?_
  have hsmaller := hitem.shrinks c x c' hx
  rw [← Language.one_add_self_mul_kstar_eq_kstar]
  refine .look (peeks_nextIs close c') ?_
  split
  · rename_i hnext
    exact .left (hitem.bars (.inr ⟨close, beq_iff_eq.1 hnext, hclose⟩)) (.pure [x])
  · rename_i hnext
    exact .present (.of_leads hF (by simpa using hnext))
      (.last (ih c' hsmaller) fun xs _ => .pure (x :: xs))

theorem settles_nonempty [Spoken I] {opening closing : Punctuator} (construct : Construct)
    (production : Production) (hclosing : closing ∉ allowed) (hstop : closing ∉ ps) (c : Cursor) :
    Settles (enclosed opening closing I) F
      (nonempty opening closing construct production item) c := by
  by_cases hempty : ∃ t u rest, c.tokens = t :: u :: rest ∧ t.kind = .punctuator opening ∧
      u.kind = .punctuator closing
  · obtain ⟨t, u, rest, htokens, ht, hu⟩ := hempty
    obtain ⟨tokens, last⟩ := c
    obtain rfl : tokens = t :: u :: rest := htokens
    exact settles_nonempty_empty construct production ht hu
  · refine .bind (settles_expect opening production) fun start c' hstart =>
      .look (peeks_nextIs closing c') ?_
    split
    · rename_i hnext
      obtain ⟨_, hsplit, rfl⟩ := yields_expect opening production c start c' hstart
      obtain ⟨more, hmore⟩ := List.head?_eq_some_iff.1 (beq_iff_eq.1 hnext)
      rw [hmore] at hsplit
      obtain ⟨t, us, htokens, ht, hus⟩ := List.map_eq_cons_iff.1 hsplit
      obtain ⟨u, rest, rfl, hu, -⟩ := List.map_eq_cons_iff.1 hus
      exact absurd ⟨t, u, rest, htokens, ht, hu⟩ hempty
    · exact .repeated (settles_someUntil hitem hclosing hstop (.mark_mul (by simp)) c')
        fun items c'' => .last (settles_expect closing production) fun _ _ => .pure _

end Loops

end QueryDoc.Parser
