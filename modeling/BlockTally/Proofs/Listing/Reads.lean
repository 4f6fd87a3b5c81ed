import BlockTally.Listing.Read

/-! What a step of reading does when it succeeds, one equivalence for each step. They are used in
both directions: to follow a step over tokens that are known, and to take apart one that succeeded. -/
namespace BlockTally.Listing
open Read

variable {σ α β : Type} {ts rest : List Lexeme} {s s' : σ} {a : α} {b : β}

/-- The step gets `a` from `ts` and leaves `rest`, while the state goes from `s` to `s'`. -/
def Reads (m : Read σ α) (ts : List Lexeme) (s : σ) (a : α) (rest : List Lexeme) (s' : σ) : Prop :=
  ∃ h, m ts s = .ok (a, ⟨rest, h⟩, s')

theorem Reads.suffix {m : Read σ α} (read : Reads m ts s a rest s') : rest <:+ ts := read.1

theorem Reads.unique {m : Read σ α} {a' : α} {rest' : List Lexeme} {s'' : σ}
    (read : Reads m ts s a rest s') (read' : Reads m ts s a' rest' s'') :
    a' = a ∧ rest' = rest ∧ s'' = s' := by
  obtain ⟨h, eq⟩ := read
  obtain ⟨h', eq'⟩ := read'
  simp only [eq, Except.ok.injEq, Prod.mk.injEq, Subtype.mk.injEq] at eq'
  exact ⟨eq'.1.symm, eq'.2.1.symm, eq'.2.2.symm⟩

theorem reads_of_eq_ok {m : Read σ α} {left : Rest ts} (ok : m ts s = .ok (a, left, s')) :
    Reads m ts s a left.val s' := ⟨left.property, ok⟩

theorem reads_pure {c : α} : Reads (pure c) ts s a rest s' ↔ a = c ∧ rest = ts ∧ s' = s := by
  constructor
  · rintro ⟨h, eq⟩
    cases eq
    exact ⟨rfl, rfl, rfl⟩
  · rintro ⟨rfl, rfl, rfl⟩
    exact ⟨List.suffix_refl _, rfl⟩

theorem reads_bind {m : Read σ α} {f : α → Read σ β} :
    Reads (m >>= f) ts s b rest s' ↔
      ∃ a between t, Reads m ts s a between t ∧ Reads (f a) between t b rest s' := by
  constructor
  · rintro ⟨h, eq⟩
    simp only [bind] at eq
    split at eq
    · cases eq
    · next a between h' t first =>
      split at eq
      · cases eq
      · next c left h'' t' second =>
        cases eq
        exact ⟨a, between, t, ⟨h', first⟩, ⟨h'', second⟩⟩
  · rintro ⟨a, between, t, ⟨h, first⟩, ⟨h', second⟩⟩
    exact ⟨h'.trans h, by simp only [bind, first, second]⟩

theorem Reads.bind_iff {m : Read σ α} {f : α → Read σ β} {between : List Lexeme} {t : σ}
    (first : Reads m ts s a between t) :
    Reads (m >>= f) ts s b rest s' ↔ Reads (f a) between t b rest s' := by
  rw [reads_bind]
  constructor
  · rintro ⟨a', between', t', first', read⟩
    obtain ⟨rfl, rfl, rfl⟩ := first.unique first'
    exact read
  · exact fun read => ⟨a, between, t, first, read⟩

theorem reads_state {c : σ} : Reads state ts s c rest s' ↔ c = s ∧ rest = ts ∧ s' = s :=
  reads_pure (a := c)

theorem reads_update {f : σ → σ} :
    Reads (update f) ts s u rest s' ↔ rest = ts ∧ s' = f s := by
  constructor
  · rintro ⟨h, eq⟩
    cases eq
    exact ⟨rfl, rfl⟩
  · rintro ⟨rfl, rfl⟩
    exact ⟨List.suffix_refl _, rfl⟩

theorem reads_ahead {all : List Lexeme} :
    Reads ahead ts s all rest s' ↔ all = ts ∧ rest = ts ∧ s' = s := reads_pure

theorem reads_outOfRange : ¬ Reads (outOfRange : Read σ α) ts s a rest s' := by
  rintro ⟨_, eq⟩
  cases eq

theorem reads_present {found : Option α} :
    Reads (present found) ts s a rest s' ↔ found = some a ∧ rest = ts ∧ s' = s := by
  cases found with
  | none => exact ⟨fun read => absurd read reads_outOfRange, fun here => nomatch here.1⟩
  | some b => rw [present, reads_pure, Option.some.injEq, eq_comm]

theorem reads_refuseAt {start : Option Nat} {cause : Cause} :
    ¬ Reads (refuseAt start cause : Read σ α) ts s a rest s' := by
  rintro ⟨_, eq⟩
  cases eq

theorem reads_peek {next : Option Lexeme} :
    Reads peek ts s next rest s' ↔ next = ts.head? ∧ rest = ts ∧ s' = s := by
  simp only [peek, reads_bind, reads_ahead, reads_pure]
  exact ⟨fun ⟨_, _, _, ⟨rfl, rfl, rfl⟩, h⟩ => h, fun h => ⟨_, _, _, ⟨rfl, rfl, rfl⟩, h⟩⟩

theorem reads_peekToken {next : Option Token} :
    Reads peekToken ts s next rest s' ↔
      next = ts.head?.map Lexeme.token ∧ rest = ts ∧ s' = s := by
  simp only [peekToken, reads_bind, reads_peek, reads_pure]
  exact ⟨fun ⟨_, _, _, ⟨rfl, rfl, rfl⟩, h⟩ => h, fun h => ⟨_, _, _, ⟨rfl, rfl, rfl⟩, h⟩⟩

theorem reads_place {start : Option Nat} :
    Reads place ts s start rest s' ↔
      start = ts.head?.map Lexeme.start ∧ rest = ts ∧ s' = s := by
  simp only [place, reads_bind, reads_peek, reads_pure]
  exact ⟨fun ⟨_, _, _, ⟨rfl, rfl, rfl⟩, h⟩ => h, fun h => ⟨_, _, _, ⟨rfl, rfl, rfl⟩, h⟩⟩

theorem reads_refuse {cause : Cause} :
    ¬ Reads (refuse cause : Read σ α) ts s a rest s' := by
  simp [refuse, reads_bind, reads_refuseAt]

theorem reads_unexpected {what : Wanted} :
    ¬ Reads (unexpected what : Read σ α) ts s a rest s' := by
  simp [unexpected, reads_bind, reads_refuse]

theorem reads_skip : Reads skip ts s u rest s' ↔ rest = ts.tail ∧ s' = s := by
  constructor
  · rintro ⟨h, eq⟩
    cases eq
    exact ⟨rfl, rfl⟩
  · rintro ⟨rfl, rfl⟩
    exact ⟨List.tail_suffix _, rfl⟩

theorem reads_skipWhile {p : Lexeme → Bool} :
    Reads (skipWhile p) ts s u rest s' ↔ rest = ts.dropWhile p ∧ s' = s := by
  constructor
  · rintro ⟨h, eq⟩
    cases eq
    exact ⟨rfl, rfl⟩
  · rintro ⟨rfl, rfl⟩
    exact ⟨List.dropWhile_suffix _, rfl⟩

/-- The next token, as far as `f` knows it. -/
def next? (f : Token → Option α) (ts : List Lexeme) : Option α :=
  (ts.head?.map Lexeme.token).bind f

theorem reads_accept {f : Token → Option α} {found : Option α} :
    Reads (accept f) ts s found rest s' ↔
      found = next? f ts ∧ rest = (if found.isSome then ts.tail else ts) ∧ s' = s := by
  simp only [accept, reads_bind, reads_peekToken]
  constructor
  · rintro ⟨_, _, _, ⟨rfl, rfl, rfl⟩, read⟩
    split at read
    · next hit =>
      simp only [reads_bind, reads_skip, reads_pure] at read
      obtain ⟨_, _, _, ⟨rfl, rfl⟩, rfl, rfl, rfl⟩ := read
      exact ⟨hit.symm, rfl, rfl⟩
    · next miss =>
      obtain ⟨rfl, rfl, rfl⟩ := reads_pure.mp read
      exact ⟨miss.symm, rfl, rfl⟩
  · rintro ⟨rfl, rfl, rfl⟩
    refine ⟨_, _, _, ⟨rfl, rfl, rfl⟩, ?_⟩
    cases hit : next? f ts with
    | none =>
      rw [next?] at hit
      simp only [hit, reads_pure]
      simp
    | some b =>
      rw [next?] at hit
      simp only [hit, reads_bind, reads_skip, reads_pure]
      exact ⟨(), _, _, ⟨rfl, rfl⟩, by simp⟩

theorem reads_accepted {f : Token → Option α} (read : Reads (accept f) ts s (some a) rest s') :
    ∃ l, ts = l :: rest ∧ f l.token = some a ∧ s' = s := by
  obtain ⟨hit, rfl, rfl⟩ := reads_accept.mp read
  obtain ⟨token, next, known⟩ := Option.bind_eq_some_iff.mp hit.symm
  obtain ⟨l, first, rfl⟩ := Option.map_eq_some_iff.mp next
  obtain ⟨more, rfl⟩ := List.head?_eq_some_iff.mp first
  exact ⟨l, rfl, known, rfl⟩

theorem reads_demand {what : Wanted} {f : Token → Option α} :
    Reads (demand what f) ts s a rest s' ↔ ∃ t, ts = t :: rest ∧ f t.token = some a ∧ s' = s := by
  simp only [demand, reads_bind, reads_accept]
  constructor
  · rintro ⟨found, _, _, ⟨hit, rfl, rfl⟩, read⟩
    cases found with
    | none => exact absurd read reads_unexpected
    | some b =>
      obtain ⟨rfl, rfl, rfl⟩ := reads_pure.mp read
      cases ts with
      | nil => cases hit
      | cons t ts => exact ⟨t, rfl, hit.symm, rfl⟩
  · rintro ⟨t, rfl, hit, rfl⟩
    exact ⟨some a, rest, s', ⟨by simp [next?, hit], rfl, rfl⟩, reads_pure.mpr ⟨rfl, rfl, rfl⟩⟩

theorem reads_eat {t : Token} {found : Bool} :
    Reads (eat t) ts s found rest s' ↔
      found = decide (ts.head?.map Lexeme.token = some t) ∧
        rest = (if found then ts.tail else ts) ∧ s' = s := by
  simp only [eat, reads_bind, reads_accept, reads_pure]
  have hit : (next? (fun found => if found = t then some () else none) ts).isSome =
      decide (ts.head?.map Lexeme.token = some t) := by
    cases ts with
    | nil => simp [next?]
    | cons l ts => by_cases same : l.token = t <;> simp [next?, same]
  constructor
  · rintro ⟨_, _, _, ⟨rfl, rfl, rfl⟩, rfl, rfl, rfl⟩
    exact ⟨hit, by rw [hit], rfl⟩
  · rintro ⟨rfl, rfl, rfl⟩
    exact ⟨_, _, _, ⟨rfl, rfl, rfl⟩, hit.symm, by rw [hit], rfl⟩

theorem reads_eaten {t : Token} (read : Reads (eat t) ts s true rest s') :
    ∃ l, ts = l :: rest ∧ l.token = t ∧ s' = s := by
  obtain ⟨hit, rfl, rfl⟩ := reads_eat.mp read
  obtain ⟨l, first, same⟩ := Option.map_eq_some_iff.mp (of_decide_eq_true hit.symm)
  obtain ⟨more, rfl⟩ := List.head?_eq_some_iff.mp first
  exact ⟨l, rfl, same, rfl⟩

theorem reads_expect {t : Token} :
    Reads (expect t) ts s u rest s' ↔ ∃ l, ts = l :: rest ∧ l.token = t ∧ s' = s := by
  simp only [expect, reads_demand]
  constructor
  · rintro ⟨l, rfl, hit, rfl⟩
    refine ⟨l, rfl, ?_, rfl⟩
    split at hit
    · assumption
    · cases hit
  · rintro ⟨l, rfl, rfl, rfl⟩
    exact ⟨l, rfl, by simp, rfl⟩

theorem reads_word {what : Wanted} {text : String} :
    Reads (word what) ts s text rest s' ↔ ∃ l, ts = l :: rest ∧ l.token = .word text ∧ s' = s := by
  simp only [word, reads_demand]
  constructor
  · rintro ⟨l, rfl, hit, rfl⟩
    refine ⟨l, rfl, ?_, rfl⟩
    split at hit
    · next same => rw [same, Option.some.inj hit]
    · cases hit
  · rintro ⟨l, rfl, same, rfl⟩
    exact ⟨l, rfl, by simp [same], rfl⟩

theorem reads_traced {m : Read σ α} {took : List Lexeme} :
    Reads (traced m) ts s (a, took) rest s' ↔ Reads m ts s a rest s' ∧ ts = took ++ rest := by
  simp only [Reads, traced]
  constructor
  · rintro ⟨h, eq⟩
    split at eq
    · cases eq
    · next a left t run =>
      simp only [Except.ok.injEq, Prod.mk.injEq] at eq
      obtain ⟨⟨rfl, rfl⟩, rfl, rfl⟩ := eq
      obtain ⟨front, rfl⟩ := h
      exact ⟨⟨_, run⟩, by simp⟩
  · rintro ⟨⟨h, eq⟩, rfl⟩
    exact ⟨h, by simp [eq]⟩

theorem reads_taken {m : Read σ Unit} {took : List Lexeme} :
    Reads (taken m) ts s took rest s' ↔ Reads m ts s () rest s' ∧ ts = took ++ rest := by
  simp only [taken, reads_bind, reads_pure]
  constructor
  · rintro ⟨⟨_, _⟩, _, _, read, rfl, rfl, rfl⟩
    exact reads_traced.mp read
  · intro read
    exact ⟨⟨_, _⟩, _, _, reads_traced.mpr read, rfl, rfl, rfl⟩

/-- The rounds of a loop, from a first value of its variable to the last. -/
inductive Rounds (pick : α → Lexeme → List Lexeme → Option β) (body : β → α → Read σ α) :
    α → List Lexeme → σ → α → List Lexeme → σ → Prop
  | finish {a : α} {ts : List Lexeme} {s : σ}
      (ends : ∀ t more, ts = t :: more → pick a t more = none) : Rounds pick body a ts s a ts s
  | round {a c d : α} {b : β} {t : Lexeme} {ts between rest : List Lexeme} {s s₁ s₂ : σ}
      (picked : pick a t ts = some b) (once : Reads (body b a) ts s c between s₁)
      (more : Rounds pick body c between s₁ d rest s₂) : Rounds pick body a (t :: ts) s d rest s₂

section
variable {pick : α → Lexeme → List Lexeme → Option β} {body : β → α → Read σ α}

private theorem rounds_of_go : ∀ (n : Nat) {a : α} {ts : List Lexeme} {s : σ} {c : α}
    {left : Rest ts} {s' : σ}, ts.length ≤ n →
    whileNext.go pick body a ts s = .ok (c, left, s') →
    Rounds pick body a ts s c left.val s'
  | n, a, [], s, c, left, s', _, ok => by
    rw [whileNext.go] at ok
    cases ok
    exact .finish (by simp)
  | 0, a, t :: ts, s, c, left, s', size, ok => by simp at size
  | n + 1, a, t :: ts, s, c, left, s', size, ok => by
    rw [whileNext.go] at ok
    split at ok
    · next stop =>
      cases ok
      refine .finish ?_
      rintro _ _ ⟨⟩
      exact stop
    · next b go_on =>
      split at ok
      · cases ok
      · next c between h s₁ once =>
        split at ok
        · cases ok
        · next d rest h' s₂ more =>
          cases ok
          have shorter := h.length_le
          have fits : between.length ≤ n := by simp at size; omega
          exact .round go_on ⟨h, once⟩ (rounds_of_go n fits more)

private theorem go_of_rounds {c : α} (rounds : Rounds pick body a ts s c rest s') :
    ∃ h, whileNext.go pick body a ts s = .ok (c, ⟨rest, h⟩, s') := by
  induction rounds with
  | @finish a ts s ends =>
    cases ts with
    | nil => exact ⟨List.suffix_refl _, by rw [whileNext.go]⟩
    | cons t ts => exact ⟨List.suffix_refl _, by rw [whileNext.go, ends t ts rfl]⟩
  | round picked once _ ih =>
    obtain ⟨h, once⟩ := once
    obtain ⟨h', more⟩ := ih
    refine ⟨h'.trans (h.trans (List.suffix_cons _ _)), ?_⟩
    rw [whileNext.go, picked]
    simp only [once, more]

theorem reads_whileNext {c : α} :
    Reads (whileNext pick body a) ts s c rest s' ↔ Rounds pick body a ts s c rest s' := by
  constructor
  · rintro ⟨h, eq⟩
    exact rounds_of_go _ (Nat.le_refl _) eq
  · exact go_of_rounds

/-- A loop ends before a token that it does not pick. -/
theorem Rounds.ends {c : α} (rounds : Rounds pick body a ts s c rest s') :
    ∀ t more, rest = t :: more → pick c t more = none := by
  induction rounds with
  | finish ends => exact ends
  | round _ _ _ ih => exact ih

/-- What each round preserves is preserved by the loop. -/
theorem Rounds.preserves {P : α → List Lexeme → σ → Prop} {c : α}
    (step : ∀ a t ts s b c between s', pick a t ts = some b → P a (t :: ts) s →
      Reads (body b a) ts s c between s' → P c between s')
    (rounds : Rounds pick body a ts s c rest s') (start : P a ts s) : P c rest s' := by
  induction rounds with
  | finish => exact start
  | round picked once _ ih => exact ih (step _ _ _ _ _ _ _ _ picked start once)

end

theorem reads_closeGroup {opening closing : Punct} {start : Option Nat} {cause : Cause} :
    Reads (closeGroup opening closing start cause) ts s u rest s' ↔
      (afterGroup opening closing 1 ts).map Subtype.val = some rest ∧ s' = s := by
  simp only [Reads, closeGroup]
  constructor
  · rintro ⟨h, eq⟩
    split at eq
    · next left found =>
      cases eq
      exact ⟨by rw [found]; rfl, rfl⟩
    · cases eq
  · rintro ⟨found, rfl⟩
    obtain ⟨⟨left, h⟩, here, rfl⟩ := Option.map_eq_some_iff.mp found
    exact ⟨h, by rw [here]⟩

theorem reads_group {opening closing : Punct} :
    Reads (group opening closing) ts s u rest s' ↔ ∃ l inside, ts = l :: inside ∧
      l.token = .punct opening ∧
      (afterGroup opening closing 1 inside).map Subtype.val = some rest ∧ s' = s := by
  simp only [group, reads_bind, reads_place, reads_expect, reads_closeGroup]
  constructor
  · rintro ⟨_, _, _, ⟨rfl, rfl, rfl⟩, _, _, _, ⟨l, rfl, opens, rfl⟩, found, rfl⟩
    exact ⟨l, _, rfl, opens, found, rfl⟩
  · rintro ⟨l, inside, rfl, opens, found, rfl⟩
    exact ⟨_, _, _, ⟨rfl, rfl, rfl⟩, (), _, _, ⟨l, rfl, opens, rfl⟩, found, rfl⟩

end BlockTally.Listing
