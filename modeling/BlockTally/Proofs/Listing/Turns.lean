import BlockTally.Proofs.Listing.Reads

/-! Loops of the reader round by round, with the tokens as a list in which a cursor moves. Nothing
makes a round take a token; that those of a loop do, and that the loop ends for that reason, is what
`Advances` says. Main statements: `advances_of_rounds`, `advances_while`, `advances_items`. -/
namespace BlockTally.Listing
open Read

instance : LawfulMonad (Read σ) :=
  LawfulMonad.mk' (Read σ)
    (fun m => by
      funext ts s
      simp only [Functor.map]
      cases m ts s <;> rfl)
    (fun a f => by
      funext ts s
      simp only [bind, pure]
      cases f a ts s <;> rfl)
    (fun m f g => by
      funext ts s
      simp only [bind]
      cases m ts s with
      | error e => rfl
      | ok r =>
        dsimp only
        cases f r.1 r.2.1.val r.2.2 with
        | error e => rfl
        | ok r' =>
          dsimp only
          cases g r'.1 r'.2.1.val r'.2.2 <;> rfl)

/-- What a round comes to. Either there is nothing more to do, or there is a new value of the
variable, with which the loop ends or goes on. -/
inductive Turn (α : Type) where
  | finished
  | last (a : α)
  | more (a : α)

namespace Read
variable {σ α β : Type}

/-- Ends or goes on with `loop` behind a round that had `a`. -/
def follow (loop : α → Read σ α) (a : α) : Turn α → Read σ α
  | .finished => return a
  | .last b => return b
  | .more b => loop b

/-- A loop that is given up after `n` rounds. -/
def inRounds (round : α → Read σ (Turn α)) : Nat → α → Read σ (Option α)
  | 0, _ => return none
  | n + 1, a => do
    match ← round a with
    | .finished => return some a
    | .last b => return some b
    | .more b => inRounds round n b

/-- One round of `whileNext`. -/
def whileRound (pick : α → Lexeme → List Lexeme → Option β) (body : β → α → Read σ α) (a : α) :
    Read σ (Turn α) := do
  match ← ahead with
  | [] => return .finished
  | t :: ts =>
    match pick a t ts with
    | none => return .finished
    | some b =>
      skip
      return .more (← body b a)

/-- Items one after another, as long as `pick` accepts the token behind the last one. -/
def items (pick : List α → Lexeme → List Lexeme → Option β) (item : Read σ α) (xs : List α) :
    Read σ (List α) := do
  whileNext pick (fun _ xs => return xs ++ [← item]) (xs ++ [← item])

/-- One item, and the token behind it if another one follows. -/
def itemRound (pick : List α → Lexeme → List Lexeme → Option β) (item : Read σ α) (xs : List α) :
    Read σ (Turn (List α)) := do
  let x ← item
  match ← ahead with
  | [] => return .last (xs ++ [x])
  | t :: ts =>
    match pick (xs ++ [x]) t ts with
    | none => return .last (xs ++ [x])
    | some _ =>
      skip
      return .more (xs ++ [x])

end Read

variable {σ α β : Type} {all ts : List Lexeme} {s : σ}

/-- On these tokens a round of the loop finds it over, which is at `stop` and leaves the cursor, or moves
the cursor forward, not past the end. From any place the loop is done within one round more than there
are tokens left, whether it succeeds or fails. -/
structure Advances (all : List Lexeme) (round : α → Read σ (Turn α)) (loop : α → Read σ α)
    (stop : α → List Lexeme → Prop) : Prop where
  forward : ∀ pos a s turn rest s', Reads (round a) (all.drop pos) s turn rest s' →
    turn = .finished ∧ rest = all.drop pos ∧ stop a rest ∨
      turn ≠ .finished ∧ ∃ next, pos < next ∧ next ≤ all.length ∧ rest = all.drop next
  ends : ∀ pos n a s, all.length - pos < n →
    inRounds round n a (all.drop pos) s = (do return some (← loop a)) (all.drop pos) s

theorem Advances.imp {round : α → Read σ (Turn α)} {loop : α → Read σ α}
    {stop stop' : α → List Lexeme → Prop} (advances : Advances all round loop stop)
    (less : ∀ a ts, stop a ts → stop' a ts) : Advances all round loop stop' where
  forward := by
    intro pos a s turn rest s' read
    apply Or.imp_left _ (advances.forward pos a s turn rest s' read)
    rintro ⟨finished, same, stopped⟩
    exact ⟨finished, same, less a rest stopped⟩
  ends := advances.ends

/-- Only what is done from where a step can lead matters. -/
theorem bind_congr_reads {m : Read σ α} {f g : α → Read σ β}
    (same : ∀ a rest s', Reads m ts s a rest s' → f a rest s' = g a rest s') :
    (m >>= f) ts s = (m >>= g) ts s := by
  simp only [bind]
  cases run : m ts s with
  | error e => rfl
  | ok r => simp only [same _ _ _ (reads_of_eq_ok run)]

theorem bind_congr_first {m m' : Read σ α} {f : α → Read σ β} (same : m ts s = m' ts s) :
    (m >>= f) ts s = (m' >>= f) ts s := by
  simp only [bind, same]

private theorem reads_congr {m m' : Read σ α} (same : m ts s = m' ts s) {a : α}
    {rest : List Lexeme} {s' : σ} :
    Reads m ts s a rest s' ↔ Reads m' ts s a rest s' := by
  simp only [Reads, same]

private theorem ahead_bind {f : List Lexeme → Read σ β} : (ahead >>= f) ts s = f ts ts s := by
  simp only [bind, ahead]
  cases f ts ts s <;> rfl

theorem peek_bind {f : Option Lexeme → Read σ β} : (peek >>= f) ts s = f ts.head? ts s := by
  rw [peek, bind_assoc, ahead_bind, pure_bind]

theorem peekToken_bind {f : Option Token → Read σ β} :
    (peekToken >>= f) ts s = f (ts.head?.map (·.token)) ts s := by
  rw [peekToken, bind_assoc, peek_bind, pure_bind]

section
variable {round : α → Read σ (Turn α)} {loop : α → Read σ α} {stop : α → List Lexeme → Prop}
  (strict : ∀ ts, ts <:+ all → ∀ a s turn rest s', Reads (round a) ts s turn rest s' →
    turn = .finished ∧ rest = ts ∧ stop a rest ∨ turn ≠ .finished ∧ rest.length < ts.length)
  (unrolls : ∀ ts, ts <:+ all → ∀ a s, loop a ts s = (round a >>= follow loop a) ts s)
include strict unrolls

private theorem inRounds_eq : ∀ (n : Nat) (ts : List Lexeme) (a : α) (s : σ), ts <:+ all →
    ts.length < n →
    inRounds round n a ts s = (do return some (← loop a)) ts s
  | 0, ts, a, s, _, size => absurd size (Nat.not_lt_zero _)
  | n + 1, ts, a, s, suffix, size => by
    rw [bind_congr_first (unrolls ts suffix a s), bind_assoc, inRounds]
    apply bind_congr_reads
    intro turn rest s' read
    cases turn with
    | finished => simp only [follow, pure_bind]
    | last b => simp only [follow, pure_bind]
    | more b =>
      -- a round that goes on leaves fewer tokens, so that the other rounds are enough for them
      rcases strict ts suffix a s _ rest s' read with ⟨finished, -⟩ | ⟨-, shorter⟩
      · cases finished
      · exact inRounds_eq n rest b s' (read.suffix.trans suffix) (by omega)

/-- A loop advances if it is unrolled by rounds that take a token. -/
theorem advances_of_rounds : Advances all round loop stop where
  forward := by
    intro pos a s turn rest s' read
    apply Or.imp_right _ (strict _ (List.drop_suffix pos all) a s turn rest s' read)
    rintro ⟨goes, shorter⟩
    have suffix := read.suffix.trans (List.drop_suffix pos all)
    have size := suffix.length_le
    rw [List.length_drop] at shorter
    exact ⟨goes, all.length - rest.length, by omega, by omega, List.suffix_iff_eq_drop.mp suffix⟩
  ends := by
    intro pos n a s size
    apply inRounds_eq strict unrolls n _ a s (List.drop_suffix pos all)
    rwa [List.length_drop]

end

section
variable {pick : α → Lexeme → List Lexeme → Option β} {body : β → α → Read σ α}

/-- The condition of the loop does not hold. -/
def Stops (pick : α → Lexeme → List Lexeme → Option β) (a : α) (ts : List Lexeme) : Prop :=
  ∀ t more, ts = t :: more → pick a t more = none

theorem stops_nil (a : α) : Stops pick a [] := by
  intro t more whole
  cases whole

theorem stops_cons {a : α} {t : Lexeme} : Stops pick a (t :: ts) ↔ pick a t ts = none := by
  constructor
  · intro stop
    exact stop t ts rfl
  · rintro none _ _ ⟨⟩
    exact none

private theorem stops_or (pick : α → Lexeme → List Lexeme → Option β) (a : α) (ts : List Lexeme) :
    Stops pick a ts ∨ ∃ t more b, ts = t :: more ∧ pick a t more = some b := by
  cases ts with
  | nil => exact .inl (stops_nil a)
  | cons t ts =>
    cases picked : pick a t ts with
    | none => exact .inl (stops_cons.mpr picked)
    | some b => exact .inr ⟨t, ts, b, rfl, picked⟩

theorem whileNext_stop {a : α} (stop : Stops pick a ts) :
    whileNext pick body a ts s = (pure a : Read σ α) ts s := by
  cases ts with
  | nil =>
    rw [whileNext, whileNext.go]
    rfl
  | cons t ts =>
    rw [whileNext, whileNext.go, stops_cons.mp stop]
    rfl

theorem whileNext_go {a : α} {t : Lexeme} {b : β} (picked : pick a t ts = some b) :
    whileNext pick body a (t :: ts) s =
      (skip >>= fun _ => body b a >>= whileNext pick body) (t :: ts) s := by
  rw [whileNext, whileNext.go, picked]
  simp only [bind, skip, advance, List.tail_cons]
  cases body b a ts s with
  | error e => rfl
  | ok r =>
    dsimp only [whileNext]
    cases whileNext.go pick body r.1 r.2.1.val r.2.2 <;> rfl

private theorem whileRound_stop {a : α} (stop : Stops pick a ts) :
    whileRound pick body a ts s = (pure .finished : Read σ (Turn α)) ts s := by
  rw [whileRound, ahead_bind]
  cases ts with
  | nil => rfl
  | cons t ts =>
    dsimp only
    rw [stops_cons.mp stop]

theorem whileRound_go {a : α} {t : Lexeme} {b : β} (picked : pick a t ts = some b) :
    whileRound pick body a (t :: ts) s =
      (skip >>= fun _ => body b a >>= fun c => pure (.more c) : Read σ (Turn α)) (t :: ts) s := by
  rw [whileRound, ahead_bind]
  dsimp only
  rw [picked]

private theorem whileNext_unrolls (a : α) :
    whileNext pick body a ts s = (whileRound pick body a >>= follow (whileNext pick body) a) ts s := by
  rcases stops_or pick a ts with stop | ⟨t, ts, b, rfl, picked⟩
  · rw [whileNext_stop stop, bind_congr_first (whileRound_stop stop), pure_bind, follow]
  · rw [whileNext_go picked, bind_congr_first (whileRound_go picked)]
    simp only [bind_assoc, pure_bind, follow]

private theorem whileRound_strict {a : α} {turn : Turn α} {rest : List Lexeme} {s' : σ}
    (read : Reads (whileRound pick body a) ts s turn rest s') :
    turn = .finished ∧ rest = ts ∧ Stops pick a rest ∨ turn ≠ .finished ∧ rest.length < ts.length := by
  rcases stops_or pick a ts with stop | ⟨t, ts, b, rfl, picked⟩
  · rw [reads_congr (whileRound_stop stop)] at read
    obtain ⟨rfl, rfl, -⟩ := reads_pure.mp read
    exact .inl ⟨rfl, rfl, stop⟩
  · rw [reads_congr (whileRound_go picked)] at read
    obtain ⟨_, _, _, skipped, more⟩ := reads_bind.mp read
    obtain ⟨rfl, rfl⟩ := reads_skip.mp skipped
    obtain ⟨c, _, _, once, last⟩ := reads_bind.mp more
    obtain ⟨rfl, rfl, -⟩ := reads_pure.mp last
    have shorter := once.suffix.length_le
    exact .inr ⟨nofun, Nat.lt_succ_of_le shorter⟩

/-- A loop with a condition advances, in whatever way its rounds are told. -/
theorem advances_while {round : α → Read σ (Turn α)}
    (same : ∀ ts, ts <:+ all → ∀ a s, round a ts s = whileRound pick body a ts s) :
    Advances all round (whileNext pick body) (Stops pick) := by
  apply advances_of_rounds
  · rintro ts suffix a s turn rest s' ⟨left, run⟩
    rw [same ts suffix] at run
    exact whileRound_strict ⟨left, run⟩
  · intro ts suffix a s
    rw [bind_congr_first (same ts suffix a s)]
    exact whileNext_unrolls a

end

section
variable {pick : List α → Lexeme → List Lexeme → Option β} {item : Read σ α}

private theorem items_unrolls (xs : List α) :
    items pick item xs ts s = (itemRound pick item xs >>= follow (items pick item) xs) ts s := by
  rw [items, itemRound, bind_assoc]
  apply bind_congr_reads
  intro x rest s' _
  rw [bind_assoc, ahead_bind]
  rcases stops_or pick (xs ++ [x]) rest with stop | ⟨t, rest, b, rfl, picked⟩
  · rw [whileNext_stop stop]
    cases rest with
    | nil => rfl
    | cons t rest =>
      dsimp only
      rw [stops_cons.mp stop]
      rfl
  · rw [whileNext_go picked]
    dsimp only
    rw [picked]
    simp only [bind_assoc, pure_bind, follow, items]

/-- A loop that begins each round with an item advances if every item has a token. -/
theorem advances_items
    (takes : ∀ ts s x rest s', Reads item ts s x rest s' → rest.length < ts.length) :
    Advances all (itemRound pick item) (items pick item) fun _ _ => False := by
  apply advances_of_rounds
  · intro ts _ xs s turn rest s' read
    obtain ⟨x, between, now, first, more⟩ := reads_bind.mp read
    have shorter := takes _ _ _ _ _ first
    have left := more.suffix.length_le
    refine .inr ⟨?_, by omega⟩
    obtain ⟨_, _, _, looked, more⟩ := reads_bind.mp more
    split at more
    · obtain ⟨rfl, -, -⟩ := reads_pure.mp more
      exact nofun
    · split at more
      · obtain ⟨rfl, -, -⟩ := reads_pure.mp more
        exact nofun
      · obtain ⟨_, _, _, -, last⟩ := reads_bind.mp more
        obtain ⟨rfl, -, -⟩ := reads_pure.mp last
        exact nofun
  · intro ts _ xs s
    exact items_unrolls xs

end

end BlockTally.Listing
