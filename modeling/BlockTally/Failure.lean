/-! Steps that can fail. A step either refuses for a stated cause or names an entry that its table
does not have; the two stay apart because only the first is part of an operation's contract. -/
namespace BlockTally

inductive Failure (ε : Type) where
  | refused (cause : ε)
  | outOfRange
  deriving DecidableEq

namespace Failure

def present : Option α → Except (Failure ε) α
  | some a => .ok a
  | none => .error .outOfRange

def map (f : ε → δ) : Failure ε → Failure δ
  | .refused cause => .refused (f cause)
  | .outOfRange => .outOfRange

theorem mapError_ok {f : ε → δ} (a : α) : (Except.ok a).mapError f = .ok a := rfl

theorem mapError_eq_ok {f : ε → δ} {x : Except ε α} : x.mapError f = .ok a ↔ x = .ok a := by
  cases x with
  | error e => constructor <;> rintro ⟨⟩
  | ok b => constructor <;> rintro ⟨⟩ <;> rfl

theorem mapError_eq_outOfRange {f : ε → δ} {x : Except (Failure ε) α} :
    x.mapError (map f) = .error .outOfRange ↔ x = .error .outOfRange := by
  cases x with
  | ok a => constructor <;> rintro ⟨⟩
  | error e =>
    cases e with
    | refused => constructor <;> rintro ⟨⟩
    | outOfRange => exact iff_of_true rfl rfl

theorem bind_eq_ok {x : Except ε α} {f : α → Except ε β} {b : β} :
    x >>= f = .ok b ↔ ∃ a, x = .ok a ∧ f a = .ok b := by
  cases x with
  | error e => simp [bind, Except.bind]
  | ok a => simp [bind, Except.bind]

theorem bind_eq_error {x : Except ε α} {f : α → Except ε β} {e : ε} :
    x >>= f = .error e ↔ x = .error e ∨ ∃ a, x = .ok a ∧ f a = .error e := by
  cases x with
  | error e => simp [bind, Except.bind]
  | ok a => simp [bind, Except.bind]

theorem present_eq_ok {x : Option α} {a : α} :
    (present x : Except (Failure ε) α) = .ok a ↔ x = some a := by
  cases x <;> simp [present]

end Failure

/-- A change to a `σ`. When it fails, the state keeps everything done until then. -/
def Edit (σ ε α : Type) := σ → Except (Failure ε) α × σ

namespace Edit

instance : Monad (Edit σ ε) where
  pure a := fun s => (.ok a, s)
  bind m f := fun s => match m s with
    | (.ok a, s) => f a s
    | (.error e, s) => (.error e, s)

theorem bind_of_ok {m : Edit σ ε α} {f : α → Edit σ ε β} (h : m s = (.ok a, s')) :
    (m >>= f) s = f a s' := by simp only [bind, h]

theorem bind_of_error {m : Edit σ ε α} {f : α → Edit σ ε β} (h : m s = (.error e, s')) :
    (m >>= f) s = (.error e, s') := by simp only [bind, h]

def read (f : σ → α) : Edit σ ε α := fun s => (.ok (f s), s)

def change (f : σ → α × σ) : Edit σ ε α := fun s => let (a, s) := f s; (.ok a, s)

def attempt (f : σ → Except (Failure ε) (α × σ)) : Edit σ ε α := fun s =>
  match f s with
  | .ok (a, s) => (.ok a, s)
  | .error e => (.error e, s)

def refuse (cause : ε) : Edit σ ε α := fun s => (.error (.refused cause), s)

def because (f : ε → δ) (m : Edit σ ε α) : Edit σ δ α := fun s =>
  let (result, s) := m s
  (result.mapError (Failure.map f), s)

/-- The change of a part, where the whole keeps the part also when the change fails. -/
def onPart (put : τ → σ → σ) (part : τ) (m : Edit τ ε α) : Edit σ ε α := fun s =>
  let (result, part) := m part
  (result, put part s)

theorem run_read {f : σ → α} {s : σ} : (read f : Edit σ ε α) s = (.ok (f s), s) := rfl

/-- A run by what it answers, whatever it leaves. -/
theorem run_of_fst {m : Edit σ ε α} {result : Except (Failure ε) α} (answers : (m s).1 = result) :
    m s = (result, (m s).2) := by rw [← answers]

/-- The state after a run of changes, which goes on behind one that failed. -/
def afterAll (steps : List (Edit σ ε α)) (s : σ) : σ := steps.foldl (fun s step => (step s).2) s

theorem afterAll_keeps {P : σ → Prop} {steps : List (Edit σ ε α)}
    (each : ∀ step ∈ steps, ∀ s, P s → P (step s).2) (start : P s) : P (afterAll steps s) := by
  induction steps generalizing s with
  | nil => exact start
  | cons step steps ih =>
    exact ih (fun step mem => each step (List.mem_cons_of_mem _ mem))
      (each step List.mem_cons_self s start)

/-! What is known of a change that succeeded. -/

theorem bind_eq_ok {m : Edit σ ε α} {f : α → Edit σ ε β} :
    (m >>= f) s = (.ok b, s') ↔ ∃ a between, m s = (.ok a, between) ∧ f a between = (.ok b, s') := by
  constructor
  · intro ok
    match h : m s with
    | (.ok a, between) => exact ⟨a, between, rfl, by rwa [bind_of_ok h] at ok⟩
    | (.error e, between) =>
      rw [bind_of_error h] at ok
      cases ok
  · rintro ⟨a, between, first, rest⟩
    rw [bind_of_ok first, rest]

theorem pure_eq_ok {a : α} : (pure a : Edit σ ε α) s = (.ok b, s') ↔ b = a ∧ s' = s := by
  simp only [pure, Prod.mk.injEq, Except.ok.injEq, eq_comm]

theorem read_eq_ok {f : σ → α} : (read f : Edit σ ε α) s = (.ok b, s') ↔ b = f s ∧ s' = s := by
  simp only [read, Prod.mk.injEq, Except.ok.injEq, eq_comm]

theorem change_eq_ok {f : σ → α × σ} :
    (change f : Edit σ ε α) s = (.ok b, s') ↔ b = (f s).1 ∧ s' = (f s).2 := by
  simp only [change, Prod.mk.injEq, Except.ok.injEq, eq_comm]

theorem attempt_eq_ok {f : σ → Except (Failure ε) (α × σ)} :
    attempt f s = (.ok a, s') ↔ f s = .ok (a, s') := by
  unfold attempt
  cases f s <;> simp [Prod.ext_iff]

theorem refuse_ne_ok {cause : ε} : (refuse cause : Edit σ ε α) s ≠ (.ok a, s') := by
  simp [refuse]

theorem because_eq_ok {f : ε → δ} {m : Edit σ ε α} :
    because f m s = (.ok a, s') ↔ m s = (.ok a, s') := by
  unfold because
  rcases m s with ⟨result, _⟩
  simp only [Prod.mk.injEq, Failure.mapError_eq_ok]

theorem onPart_eq_ok {put : τ → σ → σ} {m : Edit τ ε α} :
    onPart put part m s = (.ok a, s') ↔ ∃ part', m part = (.ok a, part') ∧ s' = put part' s := by
  unfold onPart
  rcases m part with ⟨_, _⟩
  simp only [Prod.mk.injEq]
  constructor
  · rintro ⟨rfl, rfl⟩
    exact ⟨_, ⟨rfl, rfl⟩, rfl⟩
  · rintro ⟨_, ⟨rfl, rfl⟩, rfl⟩
    exact ⟨rfl, rfl⟩

/-! What is known of a change that failed. -/

theorem bind_eq_error {m : Edit σ ε α} {f : α → Edit σ ε β} :
    (m >>= f) s = (.error e, s') ↔ m s = (.error e, s') ∨
      ∃ a between, m s = (.ok a, between) ∧ f a between = (.error e, s') := by
  match h : m s with
  | (.ok a, between) =>
    rw [bind_of_ok h]
    constructor
    · exact fun failed => .inr ⟨a, between, rfl, failed⟩
    · rintro (⟨⟨⟩⟩ | ⟨_, _, ⟨⟩, failed⟩)
      exact failed
  | (.error e, between) =>
    rw [bind_of_error h]
    constructor
    · rintro ⟨⟩
      exact .inl rfl
    · rintro (⟨⟨⟩⟩ | ⟨_, _, ⟨⟩, -⟩)
      rfl

theorem attempt_eq_error {f : σ → Except (Failure ε) (α × σ)} :
    attempt f s = (.error e, s') ↔ f s = .error e ∧ s' = s := by
  unfold attempt
  cases f s <;> simp [eq_comm]

theorem because_eq_error {f : ε → δ} {m : Edit σ ε α} {e : Failure δ} :
    because f m s = (.error e, s') ↔ ∃ cause, m s = (.error cause, s') ∧ e = cause.map f := by
  unfold because
  rcases m s with ⟨cause | a, between⟩
  · constructor
    · rintro ⟨⟩
      exact ⟨cause, rfl, rfl⟩
    · rintro ⟨_, ⟨⟩, rfl⟩
      rfl
  · constructor
    · rintro ⟨⟩
    · rintro ⟨_, ⟨⟩, -⟩

end Edit

end BlockTally
