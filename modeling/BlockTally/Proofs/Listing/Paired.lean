import BlockTally.Proofs.Listing.Beyond

/-! Two runs of the same steps, over tokens that stand at other places. What a step does is decided by
the tokens alone, so that the second run does what the first does; only places are told apart. Main
statements: `alike_readInstruction`, `alike_readBody`. -/
namespace BlockTally.Listing
open Read

/-- How the tokens of one run stand to those of another. The first run is only followed as long as it
leaves `limit` tokens. -/
structure Pairing where
  pairs : List Lexeme → List Lexeme → Prop
  limit : Nat
  nil : ∀ {us : List Lexeme}, pairs [] us → us = []
  cons : ∀ {t : Lexeme} {ts us : List Lexeme}, pairs (t :: ts) us →
    ∃ u more, us = u :: more ∧ u.token = t.token ∧ pairs ts more

namespace Pairing
variable {P : Pairing} {ts us : List Lexeme}

private theorem head (paired : P.pairs ts us) :
    us.head?.map Lexeme.token = ts.head?.map Lexeme.token := by
  cases ts with
  | nil =>
    obtain rfl := P.nil paired
    rfl
  | cons t ts =>
    obtain ⟨u, more, rfl, same, -⟩ := P.cons paired
    simp [same]

private theorem tail (paired : P.pairs ts us) : P.pairs ts.tail us.tail := by
  cases ts with
  | nil =>
    obtain rfl := P.nil paired
    exact paired
  | cons t ts =>
    obtain ⟨u, more, rfl, -, behind⟩ := P.cons paired
    exact behind

theorem tokens (paired : P.pairs ts us) : us.map (·.token) = ts.map (·.token) := by
  induction ts generalizing us with
  | nil =>
    obtain rfl := P.nil paired
    rfl
  | cons t ts ih =>
    obtain ⟨u, more, rfl, same, behind⟩ := P.cons paired
    rw [List.map_cons, List.map_cons, same, ih behind]

end Pairing

/-- The failures are of one kind, and have the same cause. -/
def SameCause (e e' : Failure Complaint) : Prop := e'.map Complaint.cause = e.map Complaint.cause

section
variable {σ α β α' β' : Type}

/-- The second run does what the first does, with results that `V` holds of and states that `R` holds
of. -/
structure Follows (P : Pairing) (R : σ → σ → Prop) (V : α → α' → Prop) (m : Read σ α) (m' : Read σ α')
    (ts us : List Lexeme) (s s' : σ) : Prop where
  reads : ∀ a rest t, Reads m ts s a rest t → P.limit ≤ rest.length →
    ∃ b left t', Reads m' us s' b left t' ∧ V a b ∧ P.pairs rest left ∧ R t t'
  refuses : ∀ e, m ts s = .error e → P.limit = 0 → ∃ e', m' us s' = .error e' ∧ SameCause e e'

class Alike (P : Pairing) (R : σ → σ → Prop) (m m' : Read σ α) : Prop where
  follows : ∀ ts us s s', P.pairs ts us → R s s' → Follows P R Eq m m' ts us s s'

variable {P : Pairing} {R : σ → σ → Prop} {V : α → α' → Prop}

private theorem error_bind {m : Read σ α} {f : α → Read σ β} {ts : List Lexeme} {s : σ}
    {e : Failure Complaint} (failed : m ts s = .error e) : (m >>= f) ts s = .error e := by
  simp only [Bind.bind, failed]

private theorem error_bind_later {m : Read σ α} {f : α → Read σ β} {ts rest : List Lexeme}
    {s s' : σ} {a : α}
    {e : Failure Complaint} (read : Reads m ts s a rest s') (failed : f a rest s' = .error e) :
    (m >>= f) ts s = .error e := by
  obtain ⟨h, ok⟩ := read
  simp only [Bind.bind, ok, failed]

theorem Follows.bind {W : β → β' → Prop} {m : Read σ α} {m' : Read σ α'} {f : α → Read σ β}
    {f' : α' → Read σ β'} {ts us : List Lexeme} {s s' : σ} (first : Follows P R V m m' ts us s s')
    (second : ∀ a b rest left t t', V a b → P.pairs rest left → R t t' →
      Follows P R W (f a) (f' b) rest left t t') :
    Follows P R W (m >>= f) (m' >>= f') ts us s s' where
  reads := by
    intro c rest t read enough
    obtain ⟨a, between, now, here, there⟩ := reads_bind.mp read
    obtain ⟨b, middle, now', here', valued, paired, related⟩ :=
      first.reads a between now here (enough.trans there.suffix.length_le)
    obtain ⟨d, left, t', there', valued, paired, related⟩ :=
      (second a b between middle now now' valued paired related).reads c rest t there enough
    exact ⟨d, left, t', reads_bind.mpr ⟨b, middle, now', here', there'⟩, valued, paired, related⟩
  refuses := by
    intro e failed none
    rcases bind_error failed with here | ⟨a, between, now, here, there⟩
    · obtain ⟨e', here', same⟩ := first.refuses e here none
      exact ⟨e', error_bind here', same⟩
    · obtain ⟨b, middle, now', here', valued, paired, related⟩ :=
        first.reads a between now here (none ▸ Nat.zero_le _)
      obtain ⟨e', there', same⟩ :=
        (second a b between middle now now' valued paired related).refuses e there none
      exact ⟨e', error_bind_later here' there', same⟩

theorem Alike.bind {m m' : Read σ α} {f f' : α → Read σ β} (first : Alike P R m m')
    (second : ∀ a, Alike P R (f a) (f' a)) : Alike P R (m >>= f) (m' >>= f') where
  follows ts us s s' paired related :=
    (first.follows ts us s s' paired related).bind fun a _ rest left t t' same paired related =>
      same ▸ (second a).follows rest left t t' paired related

instance {m m' : Read σ α} {f f' : α → Read σ β} [first : Alike P R m m']
    [second : ∀ a, Alike P R (f a) (f' a)] : Alike P R (m >>= f) (m' >>= f') := first.bind second

instance {p : Prop} [Decidable p] {m m' n n' : Read σ α} [Alike P R m m'] [Alike P R n n'] :
    Alike P R (if p then m else n) (if p then m' else n') := by
  split <;> infer_instance

/-- A step that takes nothing and keeps the state. -/
theorem Follows.still {m : Read σ α} {m' : Read σ α'} {ts us : List Lexeme} {s s' : σ} {a : α} {b : α'}
    (here : Reads m ts s a ts s) (there : Reads m' us s' b us s') (valued : V a b)
    (paired : P.pairs ts us) (related : R s s') : Follows P R V m m' ts us s s' where
  reads := by
    intro c rest t read _
    obtain ⟨rfl, rfl, rfl⟩ := here.unique read
    exact ⟨b, us, s', there, valued, paired, related⟩
  refuses := by
    intro e failed
    obtain ⟨h, ok⟩ := here
    rw [failed] at ok
    cases ok

instance (a : α) : Alike P R (pure a) (pure a) :=
  ⟨fun _ _ _ _ paired related => .still (reads_pure.mpr ⟨rfl, rfl, rfl⟩)
    (reads_pure.mpr ⟨rfl, rfl, rfl⟩) rfl paired related⟩

instance (start start' : Option Nat) (cause : Cause) :
    Alike P R (refuseAt start cause : Read σ α) (refuseAt start' cause) where
  follows _ _ _ _ _ _ := by
    refine ⟨fun _ _ _ read => absurd read reads_refuseAt, fun e failed _ => ⟨_, rfl, ?_⟩⟩
    cases failed
    rfl

instance : Alike P R (outOfRange : Read σ α) outOfRange where
  follows _ _ _ _ _ _ := by
    refine ⟨fun _ _ _ read => absurd read reads_outOfRange, fun e failed _ => ⟨_, rfl, ?_⟩⟩
    cases failed
    rfl

theorem Alike.bind_outOfRange {f f' : α → Read σ β} :
    Alike P R (outOfRange >>= f) (outOfRange >>= f') :=
  inferInstanceAs (Alike P R (outOfRange : Read σ β) outOfRange)

instance (found : Option α) : Alike P R (present found) (present found) := by
  cases found <;> unfold present <;> infer_instance

/-! Steps that look at places or at the state. -/

theorem Alike.peek {f f' : Option Lexeme → Read σ β}
    (second : ∀ next next' : Option Lexeme, next'.map Lexeme.token = next.map Lexeme.token →
      Alike P R (f next) (f' next')) : Alike P R (peek >>= f) (peek >>= f') where
  follows ts us s s' paired related := by
    have looked : Follows P R (fun a b : Option Lexeme => b.map Lexeme.token = a.map Lexeme.token)
        Read.peek Read.peek ts us s s' :=
      .still (reads_peek.mpr ⟨rfl, rfl, rfl⟩) (reads_peek.mpr ⟨rfl, rfl, rfl⟩) (Pairing.head paired) paired
        related
    exact looked.bind fun a b rest left t t' same => (second a b same).follows rest left t t'

theorem Alike.place {f f' : Option Nat → Read σ β}
    (second : ∀ start start', Alike P R (f start) (f' start')) :
    Alike P R (place >>= f) (place >>= f') where
  follows ts us s s' paired related := by
    have looked : Follows P R (fun _ _ : Option Nat => True) Read.place Read.place ts us s s' :=
      .still (reads_place.mpr ⟨rfl, rfl, rfl⟩) (reads_place.mpr ⟨rfl, rfl, rfl⟩) trivial paired related
    exact looked.bind fun a b rest left t t' _ => (second a b).follows rest left t t'

instance {f f' : Option Nat → Read σ β} [second : ∀ start start', Alike P R (f start) (f' start')] :
    Alike P R (place >>= f) (place >>= f') := .place second

/-- A result that is at hand. -/
theorem Alike.given {a a' : α} {f f' : α → Read σ β} (second : Alike P R (f a) (f' a')) :
    Alike P R (pure a >>= f) (pure a' >>= f') where
  follows ts us s s' paired related := by
    have known : Follows P R (fun b b' => b = a ∧ b' = a') (pure a : Read σ α) (pure a') ts us s s' :=
      .still (reads_pure.mpr ⟨rfl, rfl, rfl⟩) (reads_pure.mpr ⟨rfl, rfl, rfl⟩) ⟨rfl, rfl⟩ paired related
    exact known.bind fun b b' rest left t t' ⟨here, there⟩ =>
      here ▸ there ▸ second.follows rest left t t'

theorem Alike.ahead {f f' : List Lexeme → Read σ β}
    (second : ∀ ts us, P.pairs ts us → Alike P R (f ts) (f' us)) :
    Alike P R (ahead >>= f) (ahead >>= f') where
  follows ts us s s' paired related := by
    have looked : Follows P R P.pairs Read.ahead Read.ahead ts us s s' :=
      .still (reads_ahead.mpr ⟨rfl, rfl, rfl⟩) (reads_ahead.mpr ⟨rfl, rfl, rfl⟩) paired paired related
    exact looked.bind fun a b rest left t t' here => (second a b here).follows rest left t t'

theorem Alike.state {f f' : σ → Read σ β}
    (second : ∀ s s', R s s' → Alike P R (f s) (f' s')) :
    Alike P R (state >>= f) (state >>= f') where
  follows ts us s s' paired related := by
    have looked : Follows P R R Read.state Read.state ts us s s' :=
      .still (reads_state.mpr ⟨rfl, rfl, rfl⟩) (reads_state.mpr ⟨rfl, rfl, rfl⟩) related paired related
    exact looked.bind fun a b rest left t t' here => (second a b here).follows rest left t t'

theorem Alike.update {f f' : σ → σ} (keeps : ∀ s s', R s s' → R (f s) (f' s')) :
    Alike P R (update f) (update f') where
  follows _ us s s' paired related := by
    refine ⟨fun _ rest t read _ => ?_, fun e failed _ => ?_⟩
    · obtain ⟨rfl, rfl⟩ := reads_update.mp read
      exact ⟨_, us, _, reads_update.mpr ⟨rfl, rfl⟩, rfl, paired, keeps s s' related⟩
    · cases failed

instance : Alike P R peekToken peekToken where
  follows _ _ _ _ paired related :=
    .still (reads_peekToken.mpr ⟨rfl, rfl, rfl⟩)
      (reads_peekToken.mpr ⟨(Pairing.head paired).symm, rfl, rfl⟩) rfl paired related

instance : Alike P R skip skip where
  follows ts us s s' paired related := by
    refine ⟨fun _ rest t read _ => ?_, fun e failed _ => ?_⟩
    · obtain ⟨rfl, rfl⟩ := reads_skip.mp read
      exact ⟨_, us.tail, _, reads_skip.mpr ⟨rfl, rfl⟩, rfl, Pairing.tail paired, related⟩
    · cases failed

theorem alike_skipWhile {p q : Lexeme → Bool}
    (same : ∀ t u : Lexeme, u.token = t.token → q u = p t) :
    Alike P R (skipWhile p) (skipWhile q) where
  follows ts us s s' paired related := by
    have behind : P.pairs (ts.dropWhile p) (us.dropWhile q) := by
      induction ts generalizing us with
      | nil =>
        obtain rfl := P.nil paired
        exact paired
      | cons t ts ih =>
        obtain ⟨u, more, rfl, token, later⟩ := P.cons paired
        rw [List.dropWhile_cons, List.dropWhile_cons, same t u token]
        split
        · exact ih more later
        · exact paired
    refine ⟨fun _ rest t read _ => ?_, fun e failed _ => ?_⟩
    · obtain ⟨rfl, rfl⟩ := reads_skipWhile.mp read
      exact ⟨_, us.dropWhile q, _, reads_skipWhile.mpr ⟨rfl, rfl⟩, rfl, behind, related⟩
    · cases failed

instance (cause : Cause) : Alike P R (refuse cause : Read σ α) (refuse cause) := by
  unfold refuse
  infer_instance

instance (what : Wanted) : Alike P R (unexpected what : Read σ α) (unexpected what) := by
  unfold unexpected
  infer_instance

instance (f : Token → Option α) : Alike P R (accept f) (accept f) :=
  .bind inferInstance fun next => by cases next.bind f <;> infer_instance

instance (what : Wanted) (f : Token → Option α) : Alike P R (demand what f) (demand what f) :=
  .bind inferInstance fun found => by cases found <;> infer_instance

instance (t : Token) : Alike P R (eat t) (eat t) := by
  unfold eat
  infer_instance

instance (t : Token) : Alike P R (expect t) (expect t) := by
  unfold expect
  infer_instance

instance (what : Wanted) : Alike P R (word what) (word what) := by
  unfold word
  infer_instance

/-- Groups end together. -/
theorem afterGroup_paired (opening closing : Punct) {n : Nat} {ts us : List Lexeme}
    (paired : P.pairs ts us) :
    (∀ rest, (afterGroup opening closing n ts).map Subtype.val = some rest →
      ∃ left, (afterGroup opening closing n us).map Subtype.val = some left ∧ P.pairs rest left) ∧
    (afterGroup opening closing n ts = none → afterGroup opening closing n us = none) := by
  induction ts generalizing n us with
  | nil =>
    obtain rfl := P.nil paired
    exact ⟨fun rest found => ⟨rest, found, by
      cases n <;> simp [afterGroup] at found
      exact found ▸ paired⟩, id⟩
  | cons t ts ih =>
    cases n with
    | zero =>
      refine ⟨fun rest found => ?_, fun missing => by simp [afterGroup] at missing⟩
      obtain rfl : t :: ts = rest := by simpa [afterGroup] using found
      exact ⟨us, by simp [afterGroup], paired⟩
    | succ n =>
      obtain ⟨u, more, rfl, same, behind⟩ := P.cons paired
      simp only [afterGroup, same, Option.map_map, Option.map_eq_none_iff]
      exact ih behind

instance (opening closing : Punct) (start start' : Option Nat) (cause : Cause) :
    Alike P R (closeGroup opening closing start cause : Read σ Unit)
      (closeGroup opening closing start' cause) where
  follows ts us s s' paired related := by
    have ends := afterGroup_paired opening closing (n := 1) paired
    refine ⟨fun _ rest t read _ => ?_, fun e failed _ => ?_⟩
    · obtain ⟨found, rfl⟩ := reads_closeGroup.mp read
      obtain ⟨left, found', behind⟩ := ends.1 rest found
      exact ⟨_, left, s', reads_closeGroup.mpr ⟨found', rfl⟩, rfl, behind, related⟩
    · unfold closeGroup at failed ⊢
      split at failed
      · cases failed
      · rename_i none
        cases failed
        rw [ends.2 none]
        exact ⟨_, rfl, rfl⟩

instance (opening closing : Punct) :
    Alike P R (group opening closing : Read σ Unit) (group opening closing) := by
  unfold group
  infer_instance

instance : Alike P R (optionalGroup : Read σ Unit) optionalGroup := by
  unfold optionalGroup
  infer_instance

end

/-! Loops. -/

section
variable {σ α β : Type} {pick : α → Lexeme → List Lexeme → Option β} {body : β → α → Read σ α}
  {ts rest : List Lexeme} {s s' : σ} {a c : α}

theorem SomeRounds.suffix (rounds : SomeRounds pick body a ts s c rest s') : rest <:+ ts := by
  induction rounds with
  | none => exact List.suffix_refl _
  | round _ once _ ih => exact (ih.trans once.suffix).trans (List.suffix_cons _ _)

theorem Rounds.partly (rounds : Rounds pick body a ts s c rest s') :
    SomeRounds pick body a ts s c rest s' := by
  induction rounds with
  | finish => exact .none
  | round picked once _ ih => exact .round picked once ih

theorem SomeRounds.ended (rounds : SomeRounds pick body a ts s c rest s')
    (ends : ∀ t more, rest = t :: more → pick c t more = .none) :
    Rounds pick body a ts s c rest s' := by
  induction rounds with
  | none => exact .finish ends
  | round picked once _ ih => exact .round picked once (ih ends)

private theorem error_whileNext {t : Lexeme} {left : List Lexeme} {b : β} {e : Failure Complaint}
    (rounds : SomeRounds pick body a ts s c (t :: left) s') (picked : pick c t left = some b)
    (failed : body b c left s' = .error e) : whileNext pick body a ts s = .error e := by
  generalize same : t :: left = reached at rounds
  induction rounds with
  | none =>
    subst same
    rw [whileNext, whileNext.go, picked]
    simp only [failed]
  | round first once _ ih =>
    obtain ⟨h, ok⟩ := once
    have later := ih picked failed same
    rw [whileNext] at later ⊢
    rw [whileNext.go, first]
    simp only [ok, later]

end

section
variable {σ α β β' : Type} {P : Pairing} {R : σ → σ → Prop} {W : β → β' → Prop}
  {pick : α → Lexeme → List Lexeme → Option β} {pick' : α → Lexeme → List Lexeme → Option β'}
  {body : β → α → Read σ α} {body' : β' → α → Read σ α}

/-- The rounds of the one loop are those of the other, if they are alike wherever the first comes. -/
theorem SomeRounds.follow {a₀ : α} {ts₀ : List Lexeme} {s₀ : σ}
    (picks : ∀ a t u ts us b, P.pairs (t :: ts) (u :: us) → pick a t ts = .some b →
      P.limit ≤ ts.length → ∃ b', pick' a u us = .some b' ∧ W b b')
    (alike : ∀ a t u ts us s s' b b', SomeRounds pick body a₀ ts₀ s₀ a (t :: ts) s →
      pick a t ts = .some b → pick' a u us = .some b' → W b b' → P.pairs (t :: ts) (u :: us) →
      P.pairs ts us → R s s' → Follows P R Eq (body b a) (body' b' a) ts us s s') {a c : α}
    {ts us rest : List Lexeme} {s s' now : σ} (sofar : SomeRounds pick body a₀ ts₀ s₀ a ts s)
    (rounds : SomeRounds pick body a ts s c rest now) (enough : P.limit ≤ rest.length)
    (paired : P.pairs ts us) (related : R s s') :
    ∃ left now', SomeRounds pick' body' a us s' c left now' ∧ P.pairs rest left ∧ R now now' := by
  induction rounds generalizing us s' with
  | none => exact ⟨us, s', .none, paired, related⟩
  | @round a c d b t ts between rest s s₁ s₂ picked once more ih =>
    obtain ⟨u, us, rfl, same, behind⟩ := P.cons paired
    have later : P.limit ≤ ts.length :=
      enough.trans (more.suffix.trans once.suffix).length_le
    obtain ⟨b', picked', valued⟩ := picks a t u ts us b paired picked later
    obtain ⟨_, middle, s₁', once', rfl, paired', related'⟩ :=
      (alike a t u ts us s s' b b' sofar picked picked' valued paired behind related).reads c between s₁
        once (enough.trans more.suffix.length_le)
    obtain ⟨left, now', rounds', ending⟩ := ih (sofar.snoc picked once) enough paired' related'
    exact ⟨left, now', .round picked' once' rounds', ending⟩

/-- Loops are alike when their rounds are. -/
theorem Follows.loop {a : α} {ts us : List Lexeme} {s s' : σ}
    (picks : ∀ a t u ts us b, P.pairs (t :: ts) (u :: us) → pick a t ts = some b →
      P.limit ≤ ts.length → ∃ b', pick' a u us = some b' ∧ W b b')
    (stops : ∀ a t u ts us, P.pairs (t :: ts) (u :: us) → pick a t ts = none → pick' a u us = none)
    (alike : ∀ c t u left us now now' b b', SomeRounds pick body a ts s c (t :: left) now →
      pick c t left = some b → pick' c u us = some b' → W b b' → P.pairs (t :: left) (u :: us) →
      P.pairs left us → R now now' → Follows P R Eq (body b c) (body' b' c) left us now now')
    (paired : P.pairs ts us) (related : R s s') :
    Follows P R Eq (whileNext pick body a) (whileNext pick' body' a) ts us s s' where
  reads := by
    intro c rest t read enough
    have rounds := reads_whileNext.mp read
    obtain ⟨left, now, rounds', ending⟩ :=
      SomeRounds.follow picks alike .none rounds.partly enough paired related
    refine ⟨c, left, now, reads_whileNext.mpr (rounds'.ended fun u us same => ?_), rfl, ending⟩
    subst same
    cases rest with
    | nil => exact absurd (P.nil ending.1) (List.cons_ne_nil _ _)
    | cons t ts => exact stops c t u ts us ending.1 (rounds.ends t ts rfl)
  refuses := by
    intro e failed none
    obtain ⟨c, t, left, now, b, rounds, picked, here⟩ := whileNext_error failed
    obtain ⟨_, now', rounds', paired', related'⟩ :=
      SomeRounds.follow picks alike .none rounds (none ▸ Nat.zero_le _) paired related
    obtain ⟨u, left', rfl, same, behind⟩ := P.cons paired'
    obtain ⟨b', picked', valued⟩ := picks c t u left left' b paired' picked (none ▸ Nat.zero_le _)
    obtain ⟨e', failed', cause⟩ :=
      (alike c t u left left' now now' b b' rounds picked picked' valued paired' behind
        related').refuses e here none
    exact ⟨e', error_whileNext rounds' picked' failed', cause⟩

/-- Loops with rounds that are alike, where what is picked may have places. -/
theorem Alike.loop
    (picks : ∀ a t u ts us b, P.pairs (t :: ts) (u :: us) → pick a t ts = some b →
      P.limit ≤ ts.length → ∃ b', pick' a u us = some b' ∧ W b b')
    (stops : ∀ a t u ts us, P.pairs (t :: ts) (u :: us) → pick a t ts = none → pick' a u us = none)
    (alike : ∀ a b b', W b b' → Alike P R (body b a) (body' b' a)) (a : α) :
    Alike P R (whileNext pick body a) (whileNext pick' body' a) where
  follows _ _ _ _ :=
    .loop picks stops fun _ _ _ _ _ _ _ _ _ _ _ _ valued _ behind related =>
      (alike _ _ _ valued).follows _ _ _ _ behind related

/-- A loop that picks by tokens alone. -/
theorem Alike.loop_tokens {pick : α → Lexeme → List Lexeme → Option β}
    (tokens : ∀ a (t u : Lexeme) ts us, u.token = t.token →
      us.head?.map Lexeme.token = ts.head?.map Lexeme.token → pick a u us = pick a t ts)
    {body body' : β → α → Read σ α} (alike : ∀ a b, Alike P R (body b a) (body' b a)) (a : α) :
    Alike P R (whileNext pick body a) (whileNext pick body' a) := by
  have same : ∀ a t u ts us, P.pairs (t :: ts) (u :: us) → pick a u us = pick a t ts := by
    intro a t u ts us paired
    obtain ⟨_, _, cut, token, behind⟩ := P.cons paired
    obtain ⟨rfl, rfl⟩ := List.cons.inj cut
    exact tokens a t u ts us token (Pairing.head behind)
  refine .loop (W := Eq) (fun a t u ts us b paired picked _ => ⟨b, ?_, rfl⟩)
    (fun a t u ts us paired stop => ?_) (fun a b _ same => same ▸ alike a b) a
  · rw [same a t u ts us paired, picked]
  · rw [same a t u ts us paired, stop]

end

/-! Phrases. -/

section
variable {σ : Type} {P : Pairing} {R : σ → σ → Prop}

instance : Alike P R (readTy : Read σ Ty) readTy := by
  unfold readTy
  have stars : ∀ (start start' : Option Nat) (ty : Ty), Alike P R
      (whileNext (fun _ t _ => if t.token = .punct .star then some () else none)
        (fun _ ty => if ty.isVoid then refuseAt start .pointerToVoid else return .ptr) ty)
      (whileNext (fun _ t _ => if t.token = .punct .star then some () else none)
        (fun _ ty => if ty.isVoid then refuseAt start' .pointerToVoid else return .ptr) ty) :=
    fun start start' => .loop_tokens (fun _ t u _ _ same _ => by rw [same]) fun _ _ => inferInstance
  refine .place fun start start' => .bind inferInstance fun next => ?_
  split
  · split <;> infer_instance
  all_goals infer_instance

instance (ty : Ty) : Alike P R (readConstant? ty : Read σ (Option Constant)) (readConstant? ty) := by
  refine .bind inferInstance fun next => ?_
  split <;> infer_instance

instance : Alike P R (readWord32 : Read σ UInt32) readWord32 := by
  refine .place fun start start' => .bind inferInstance fun value => ?_
  split <;> infer_instance

instance : Alike P R (skipAttributes : Read σ Unit) skipAttributes := by
  unfold skipAttributes
  refine .loop_tokens (fun _ t u _ _ same _ => by rw [same]) (fun _ attr => ?_) ()
  cases attr <;> infer_instance

end

/-! Bodies. -/

/-- The same function up to the instructions in its blocks. -/
structure Outlines (f g : Function) : Prop where
  same : g = { f with blocks := g.blocks }
  names : g.blocks.map (·.name) = f.blocks.map (·.name)

namespace Outlines
variable {f g : Function}

theorem refl (f : Function) : Outlines f f := ⟨rfl, rfl⟩

private theorem values (outlines : Outlines f g) : g.values = f.values := by
  rw [outlines.same]

private theorem valueNamed? (outlines : Outlines f g) (name : String) :
    g.valueNamed? name = f.valueNamed? name := by
  rw [Function.valueNamed?, outlines.values, Function.valueNamed?]

private theorem blockNamed? (outlines : Outlines f g) (name : String) :
    g.blockNamed? name = f.blockNamed? name := by
  have index : ∀ blocks : List Block, blocks.findIdx? (·.name == name) =
      (blocks.map (·.name)).findIdx? (· == name) := by
    intro blocks
    rw [List.findIdx?_map]
    rfl
  rw [Function.blockNamed?, index, outlines.names, ← index, Function.blockNamed?]

private theorem withValues (outlines : Outlines f g) (values : List Value) :
    Outlines { f with values } { g with values } := by
  refine ⟨?_, outlines.names⟩
  rw [outlines.same]

end Outlines

/-- The same values, in functions that are the same up to instructions. -/
structure SameValues (s s' : Scope) : Prop where
  function : Outlines s.function s'.function
  pending : s'.pending.map (·.1) = s.pending.map (·.1)

section
variable {P : Pairing} (m : Module) (ty : Ty)

private theorem alike_enterFunction {f g : Function} (outlines : Outlines f g) (id : ValueId) :
    Alike P SameValues (do update fun scope => { scope with function := f }; return id)
      (do update fun scope => { scope with function := g }; return id) :=
  .bind (.update fun _ _ same => ⟨outlines, same.pending⟩) fun _ => inferInstance

instance alike_addLocal (start start' : Nat) (name : String) :
    Alike P SameValues (addLocal start name ty) (addLocal start' name ty) := by
  refine .state fun s s' same => ?_
  have values := same.function.values
  have title : s'.function.name = s.function.name := by rw [same.function.same]
  simp only [Function.addNamedValue, same.function.valueNamed? name, values]
  by_cases named : (s.function.valueNamed? name).isSome = true
  · rw [if_pos named, if_pos named, title]
    infer_instance
  · rw [if_neg named, if_neg named]
    exact alike_enterFunction (same.function.withValues _) _

theorem SameValues.waits {s s' : Scope} (same : SameValues s s') (name : String) :
    s'.pending.any (·.1 == name) = s.pending.any (·.1 == name) := by
  rw [Bool.eq_iff_iff, any_pending, any_pending, same.pending]

private theorem map_fst_settled (pending : List (String × Nat)) (name : String) :
    (pending.filter (·.1 != name)).map (·.1) = (pending.map (·.1)).filter (· != name) := by
  rw [List.filter_map]
  rfl

instance alike_defineLocal (start start' : Nat) (name : String) :
    Alike P SameValues (defineLocal start name ty) (defineLocal start' name ty) := by
  refine .state fun s s' same => ?_
  rw [same.function.valueNamed? name]
  cases s.function.valueNamed? name with
  | none => infer_instance
  | some id =>
    simp only [same.waits name]
    by_cases waits : s.pending.any (·.1 == name) = true
    · simp only [waits, Bool.not_true, Bool.false_eq_true, if_false, Function.retype, Function.value?,
        same.function.values]
      cases s.function.values[id.index]? with
      | none => exact inferInstanceAs (Alike P SameValues outOfRange outOfRange)
      | some v =>
        refine .bind (.update fun _ _ now => ⟨same.function.withValues _, ?_⟩) fun _ => inferInstance
        rw [map_fst_settled, map_fst_settled, now.pending]
    · simp only [Bool.not_eq_true] at waits
      simp only [waits, Bool.not_false, if_true]
      infer_instance

instance alike_readOperand : Alike P SameValues (readOperand m.symbol? ty) (readOperand m.symbol? ty) := by
  refine .peek fun next next' same => ?_
  match next, next', same with
  | none, none, _ =>
    refine .bind inferInstance fun found => ?_
    cases found <;> infer_instance
  | some ⟨token, start, stop⟩, some ⟨token', start', stop'⟩, same =>
    obtain rfl : token = token' := (Option.some.inj same).symm
    cases token with
    | localName name =>
      refine .bind inferInstance fun _ => .state fun s s' same => ?_
      rw [same.function.valueNamed? name]
      cases s.function.valueNamed? name with
      | some id => infer_instance
      | none =>
        refine .bind inferInstance fun id => .bind (.update fun t t' same => ⟨same.function, ?_⟩)
          fun _ => inferInstance
        rw [List.map_append, List.map_append, same.pending]
        rfl
    | globalName name =>
      refine .bind inferInstance fun _ => ?_
      cases m.symbol? name with
      | none => infer_instance
      | some symbol => cases symbol <;> infer_instance
    | _ =>
      refine .bind inferInstance fun found => ?_
      cases found <;> infer_instance

instance : Alike P SameValues readBlock readBlock := by
  refine .place fun start start' => .bind inferInstance fun name => .state ?_
  intro s s' same
  rw [same.function.blockNamed? name]
  cases s.function.blockNamed? name <;> infer_instance

section
variable {σ : Type} {R : σ → σ → Prop}

instance : Alike P R (expectComma : Read σ Unit) expectComma := by
  unfold expectComma
  infer_instance

instance (text : String) : Alike P R (expectWord text : Read σ Unit) (expectWord text) := by
  unfold expectWord
  infer_instance

instance : Alike P R (readFlags : Read σ (Bool × Bool)) readFlags := by
  unfold readFlags
  exact .loop_tokens (fun _ t u _ _ same _ => by rw [same]) (fun _ _ => inferInstance) _

instance : Alike P R (readAttachment : Read σ (Option UInt32)) readAttachment := by
  refine .bind inferInstance fun next => .bind inferInstance fun _ => ?_
  cases next.bind Token.node? <;> infer_instance

instance : Alike P R (readTrailer : Read σ Trailer) readTrailer := by
  unfold readTrailer
  refine .loop_tokens (fun _ t u _ _ same next => by rw [same, next]) (fun trailer kind => ?_) _
  refine .bind inferInstance fun _ => ?_
  cases kind with
  | none => infer_instance
  | some kind =>
    refine .bind inferInstance fun node => ?_
    cases node <;> infer_instance

private theorem alike_readOpcode {first first' : Lexeme} (same : first'.token = first.token) :
    Alike P R (readOpcode first : Read σ (Option String × String)) (readOpcode first') := by
  unfold readOpcode
  rw [same]
  refine .bind inferInstance fun next => ?_
  split <;> infer_instance

end

instance : Alike P SameValues readLabel readLabel := by
  unfold readLabel
  infer_instance

instance : Alike P SameValues (readPointer m.symbol?) (readPointer m.symbol?) := by
  unfold readPointer
  infer_instance

instance : Alike P SameValues (readArg m.symbol?) (readArg m.symbol?) := by
  unfold readArg
  infer_instance

instance : Alike P SameValues (readArgs m.symbol?) (readArgs m.symbol?) := by
  have loop : ∀ args, Alike P SameValues
      (whileNext (fun _ t _ => if t.token = .punct .comma then some () else none)
        (fun _ args => return args ++ [← readArg m.symbol?]) args)
      (whileNext (fun _ t _ => if t.token = .punct .comma then some () else none)
        (fun _ args => return args ++ [← readArg m.symbol?]) args) :=
    .loop_tokens (fun _ t u _ _ same _ => by rw [same]) fun _ _ => inferInstance
  unfold readArgs
  infer_instance

instance : Alike P SameValues (readSite m ty) (readSite m ty) := by
  have groups : Alike P SameValues
      (whileNext (fun _ t _ => if t.token = .attrRef then some () else none) (fun _ _ => return ()) ())
      (whileNext (fun _ t _ => if t.token = .attrRef then some () else none)
        (fun _ _ => return ()) ()) :=
    .loop_tokens (fun _ t u _ _ same _ => by rw [same]) (fun _ _ => inferInstance) ()
  refine .bind inferInstance fun next => ?_
  split <;> infer_instance

instance : Alike P SameValues (readCallSite m.symbol?) (readCallSite m.symbol?) := by
  rw [readCallSite_eq]
  infer_instance

instance : Alike P SameValues (readEdge m.symbol? ty) (readEdge m.symbol? ty) := by
  unfold readEdge
  infer_instance

instance (op : Arith) : Alike P SameValues (readArith m.symbol? op) (readArith m.symbol? op) := by
  unfold readArith
  infer_instance

instance (op : Conversion) : Alike P SameValues (readConversion m.symbol? op) (readConversion m.symbol? op) := by
  unfold readConversion
  infer_instance

instance : Alike P SameValues (readComparison m.symbol?) (readComparison m.symbol?) := by
  refine .bind inferInstance fun text => ?_
  cases Comparison.ofMnemonic? text <;> infer_instance

instance : Alike P SameValues (readLoad m.symbol?) (readLoad m.symbol?) := by
  unfold readLoad
  infer_instance

instance : Alike P SameValues (readStore m.symbol?) (readStore m.symbol?) := by
  unfold readStore
  infer_instance

instance : Alike P SameValues (readPhi m.symbol?) (readPhi m.symbol?) := by
  have loop : ∀ ty edges, Alike P SameValues
      (whileNext (fun _ t ts => if t.token = .punct .comma &&
          ts.head?.map Lexeme.token = some (.punct .lbracket) then some () else none)
        (fun _ edges => return edges ++ [← readEdge m.symbol? ty]) edges)
      (whileNext (fun _ t ts => if t.token = .punct .comma &&
          ts.head?.map Lexeme.token = some (.punct .lbracket) then some () else none)
        (fun _ edges => return edges ++ [← readEdge m.symbol? ty]) edges) := fun ty =>
    .loop_tokens (fun _ t u _ _ same next => by rw [same, next]) fun _ _ => inferInstance
  unfold readPhi
  infer_instance

instance : Alike P SameValues (readInvoke m.symbol?) (readInvoke m.symbol?) := by
  unfold readInvoke
  infer_instance

instance : Alike P SameValues (readBranch m.symbol?) (readBranch m.symbol?) := by
  unfold readBranch
  infer_instance

instance : Alike P SameValues (readReturn m.symbol?) (readReturn m.symbol?) := by
  unfold readReturn
  infer_instance

instance (opcode : String) : Alike P SameValues (readOperation m.symbol? opcode) (readOperation m.symbol? opcode) := by
  unfold readOperation
  split
  · infer_instance
  · infer_instance
  · split <;> infer_instance

instance (start start' : Nat) (opcode : String) (op : Operation) (inst : Instruction)
    (result : Option String) : Alike P SameValues (readResult start opcode op inst result)
      (readResult start' opcode op inst result) := by
  cases result <;> unfold readResult <;> infer_instance

/-- An instruction is read from tokens, and from the names of values and blocks. -/
theorem alike_readInstruction {first first' : Lexeme} (same : first'.token = first.token) :
    Alike P SameValues (readInstruction m.symbol? first) (readInstruction m.symbol? first') := by
  rw [readInstruction_eq, readInstruction_eq]
  refine .bind (alike_readOpcode same) fun opcode => ?_
  infer_instance

end

/-- The same function, and the same values that await their definition. -/
structure SameScope (s s' : Scope) : Prop where
  function : s'.function = s.function
  pending : s'.pending.map (·.1) = s.pending.map (·.1)

section
variable {P : Pairing} (m : Module)

theorem SameScope.values {s s' : Scope} (same : SameScope s s') : SameValues s s' :=
  ⟨same.function ▸ .refl _, same.pending⟩

/-- No instruction changes the blocks, so that the functions stay the same. -/
theorem same_readInstruction {first first' : Lexeme} (same : first'.token = first.token) :
    Alike P SameScope (readInstruction m.symbol? first) (readInstruction m.symbol? first') where
  follows ts us s s' paired related := by
    have alike := (alike_readInstruction (P := P) m same).follows ts us s s' paired related.values
    refine ⟨fun inst rest t read enough => ?_, alike.refuses⟩
    obtain ⟨_, left, t', read', rfl, paired', values⟩ := alike.reads inst rest t read enough
    refine ⟨inst, left, t', read', rfl, paired', ⟨?_, values.pending⟩⟩
    have blocks : t'.function.blocks = t.function.blocks := by
      rw [(readInstruction_went read').2.blocks, (readInstruction_went read).2.blocks,
        related.function]
    rw [values.function.same, blocks]

theorem SameScope.update {f f' : Scope → Function} (same : ∀ s s', SameScope s s' → f' s' = f s) :
    Alike P SameScope (update fun scope => { scope with function := f scope })
      (update fun scope => { scope with function := f' scope }) :=
  .update fun s s' related => ⟨same s s' related, related.pending⟩

private theorem alike_addLabels {found found' : List (String × Nat)}
    (same : found'.map (·.1) = found.map (·.1)) :
    Alike P SameScope (addLabels found) (addLabels found') := by
  induction found generalizing found' with
  | nil =>
    obtain rfl := List.map_eq_nil_iff.mp same
    exact inferInstanceAs (Alike P SameScope (pure ()) (pure ()))
  | cons label found ih =>
    cases found' with
    | nil => cases same
    | cons label' found' =>
      obtain ⟨names, more⟩ := List.cons.inj same
      obtain ⟨name, start⟩ := label
      obtain ⟨name', start'⟩ := label'
      obtain rfl : name' = name := names
      have rest := ih more
      refine .state fun s s' related => ?_
      rw [related.function]
      have added : Alike P SameScope
          (update fun scope => { scope with function := (scope.function.addBlock name').2 })
          (update fun scope => { scope with function := (scope.function.addBlock name').2 }) :=
        SameScope.update fun s s' related => by rw [related.function]
      infer_instance

private theorem map_fst_labels_of_tokens {ts us : List Lexeme}
    (same : us.map (·.token) = ts.map (·.token)) :
    (labels us).map (·.1) = (labels ts).map (·.1) := by
  have names : ∀ ts : List Lexeme, (labels ts).map (·.1) =
      ((ts.map (·.token)).takeWhile (· != .punct .rbrace)).filterMap labelOf? := by
    intro ts
    rw [labels, List.map_filterMap, List.takeWhile_map, List.filterMap_map]
    refine List.filterMap_congr fun t _ => ?_
    simp only [Function.comp_apply]
    cases t.token <;> rfl
  rw [names, names, same]

private theorem alike_readLine {first first' : Lexeme} (same : first'.token = first.token)
    (current : Nat) :
    Alike P SameScope (readLine m first current) (readLine m first' current) := by
  have pushed : Alike P SameScope (readPushed m first current) (readPushed m first' current) := by
    refine .bind (same_readInstruction m same) fun inst => .state fun s s' related => ?_
    rw [related.function]
    cases s.function.push ⟨current⟩ inst with
    | none => infer_instance
    | some g => exact .bind (SameScope.update fun _ _ _ => rfl) fun _ => inferInstance
  unfold readLine
  rw [same]
  split
  · infer_instance
  · exact pushed

private theorem alike_fillBlocks :
    Alike P SameScope (fillBlocks m.symbol?) (fillBlocks m.symbol?) := by
  rw [fillBlocks_eq]
  refine .loop (W := fun t t' => t'.token = t.token) ?_ ?_
    (fun current _ _ same => alike_readLine m same current) 0
  · intro current t u ts us first paired picked _
    obtain ⟨_, _, cut, token, -⟩ := P.cons paired
    obtain ⟨rfl, rfl⟩ := List.cons.inj cut
    obtain ⟨other, rfl⟩ := pickLine_eq_some.mp picked
    exact ⟨u, pickLine_eq_some.mpr ⟨token ▸ other, rfl⟩, token⟩
  · intro current t u ts us paired stop
    obtain ⟨_, _, cut, token, -⟩ := P.cons paired
    obtain ⟨rfl, rfl⟩ := List.cons.inj cut
    unfold pickLine at stop ⊢
    rw [token]
    split at stop
    · rw [if_pos ‹_›]
    · cases stop

instance : Alike P SameScope readSettled readSettled := by
  refine .state fun s s' related => ?_
  have first : s'.pending.head?.map (·.1) = s.pending.head?.map (·.1) := by
    rw [← List.head?_map, related.pending, List.head?_map]
  cases here : s.pending.head? with
  | none =>
    rw [here, Option.map_none, Option.map_eq_none_iff] at first
    rw [first]
    infer_instance
  | some label =>
    rw [here, Option.map_some, Option.map_eq_some_iff] at first
    obtain ⟨label', there, same⟩ := first
    obtain ⟨name, start⟩ := label
    obtain ⟨name', start'⟩ := label'
    obtain rfl : name' = name := same
    rw [there]
    infer_instance

instance : Alike P SameScope (readLines m) (readLines m) := by
  have lines : Alike P SameScope (fillBlocks m.symbol?) (fillBlocks m.symbol?) := alike_fillBlocks m
  rw [readLines_eq]
  infer_instance

/-- A body is read from its tokens, wherever they stand. -/
theorem alike_readBody : Alike P SameScope (readBody m.symbol?) (readBody m.symbol?) := by
  have labelled : Alike P SameScope (readLabelled m) (readLabelled m) :=
    .ahead fun ts us paired =>
      .bind (alike_addLabels (map_fst_labels_of_tokens (Pairing.tokens paired))) fun _ => inferInstance
  have unlabelled : Alike P SameScope (readUnlabelled m) (readUnlabelled m) := by
    refine .bind (SameScope.update fun s s' related => by rw [related.function]) fun _ => ?_
    exact .ahead fun ts us paired =>
      .bind (alike_addLabels (map_fst_labels_of_tokens (Pairing.tokens paired))) fun _ => inferInstance
  rw [readBody_announced]
  refine .bind inferInstance fun next => ?_
  rcases readAnnounced_cases m next with ⟨-, choice⟩ | ⟨-, choice⟩
  · rw [choice]
    exact labelled
  · rw [choice]
    exact unlabelled

end

end BlockTally.Listing
