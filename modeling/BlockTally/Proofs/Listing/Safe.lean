import BlockTally.Listing.Entity
import BlockTally.Proofs.Listing.Bodies
import BlockTally.Proofs.Listing.Mentioned
import BlockTally.Proofs.Listing.Signatures

/-! Steps of reading that never go beyond a table. Every step of an instruction is one; the loop over
the lines of a body is not, and stops at a line whose block is not in the table. Main statements:
`whileNext_error` and the instance for `readInstruction`. -/
namespace BlockTally.Listing
open Read

/-- The step names no entry that its table does not have. -/
class Safe {σ α : Type} (m : Read σ α) : Prop where
  inside : ∀ ts s, m ts s ≠ .error .outOfRange

section
variable {σ α β : Type}

theorem Reads.not_error {m : Read σ α} {ts rest : List Lexeme} {s s' : σ} {a : α}
    {e : Failure Complaint} (read : Reads m ts s a rest s') : m ts s ≠ .error e := by
  obtain ⟨h, ok⟩ := read
  rw [ok]
  nofun

theorem Safe.of_ok {m : Read σ α} (ok : ∀ ts s, ∃ r, m ts s = .ok r) : Safe m where
  inside := by
    intro ts s bad
    obtain ⟨r, same⟩ := ok ts s
    rw [same] at bad
    cases bad

theorem bind_error {m : Read σ α} {f : α → Read σ β} {ts : List Lexeme} {s : σ}
    {e : Failure Complaint} (failed : (m >>= f) ts s = .error e) :
    m ts s = .error e ∨ ∃ a rest s', Reads m ts s a rest s' ∧ f a rest s' = .error e := by
  simp only [Bind.bind] at failed
  split at failed
  · rename_i first
    cases failed
    exact .inl first
  · rename_i a rest h s' read
    split at failed
    · rename_i second
      cases failed
      exact .inr ⟨a, rest, s', ⟨h, read⟩, second⟩
    · cases failed

theorem Safe.bind {m : Read σ α} {f : α → Read σ β} (first : Safe m) (second : ∀ a, Safe (f a)) :
    Safe (m >>= f) where
  inside := by
    intro ts s bad
    rcases bind_error bad with here | ⟨a, rest, s', -, here⟩
    · exact first.inside ts s here
    · exact (second a).inside rest s' here

instance {m : Read σ α} {f : α → Read σ β} [first : Safe m] [second : ∀ a, Safe (f a)] :
    Safe (m >>= f) := first.bind second

instance {p : Prop} [Decidable p] {m m' : Read σ α} [Safe m] [Safe m'] :
    Safe (if p then m else m') := by
  split <;> infer_instance

instance (a : α) : Safe (pure a : Read σ α) := .of_ok fun _ _ => ⟨_, rfl⟩

instance (start : Option Nat) (cause : Cause) : Safe (refuseAt start cause : Read σ α) where
  inside := by
    intro ts s bad
    cases bad

instance : Safe (state : Read σ σ) := .of_ok fun _ _ => ⟨_, rfl⟩

instance (f : σ → σ) : Safe (update f) := .of_ok fun _ _ => ⟨_, rfl⟩

instance : Safe (ahead : Read σ (List Lexeme)) := .of_ok fun _ _ => ⟨_, rfl⟩

instance (f : (ts : List Lexeme) → Rest ts) : Safe (advance f : Read σ Unit) :=
  .of_ok fun _ _ => ⟨_, rfl⟩

instance : Safe (peek : Read σ _) := by unfold peek; infer_instance

instance : Safe (peekToken : Read σ _) := by unfold peekToken; infer_instance

instance : Safe (place : Read σ _) := by unfold place; infer_instance

instance (cause : Cause) : Safe (refuse cause : Read σ α) := by unfold refuse; infer_instance

instance (what : Wanted) : Safe (unexpected what : Read σ α) := by
  unfold unexpected; infer_instance

instance : Safe (skip : Read σ Unit) := by unfold skip; infer_instance

instance (p : Lexeme → Bool) : Safe (skipWhile p : Read σ Unit) := by
  unfold skipWhile; infer_instance

instance (f : Token → Option α) : Safe (accept f : Read σ (Option α)) :=
  Safe.bind inferInstance fun next => by split <;> infer_instance

instance (what : Wanted) (f : Token → Option α) : Safe (demand what f : Read σ α) :=
  Safe.bind inferInstance fun found => by split <;> infer_instance

instance (t : Token) : Safe (eat t : Read σ Bool) := by unfold eat; infer_instance

instance (t : Token) : Safe (expect t : Read σ Unit) := by unfold expect; infer_instance

instance (what : Wanted) : Safe (word what : Read σ String) := by unfold word; infer_instance

instance {m : Read σ α} [safe : Safe m] : Safe (traced m) where
  inside := by
    intro ts s bad
    unfold traced at bad
    split at bad
    · rename_i e failed
      cases bad
      exact safe.inside _ _ failed
    · cases bad

instance {m : Read σ Unit} [Safe m] : Safe (taken m) := by unfold taken; infer_instance

instance (opening closing : Punct) (start : Option Nat) (cause : Cause) :
    Safe (closeGroup opening closing start cause : Read σ Unit) where
  inside := by
    intro ts s bad
    unfold closeGroup at bad
    split at bad <;> cases bad

instance (opening closing : Punct) : Safe (group opening closing : Read σ Unit) := by
  unfold group; infer_instance

instance : Safe (optionalGroup : Read σ Unit) := by unfold optionalGroup; infer_instance

/-- Some rounds of a loop, after which it may go on. -/
inductive SomeRounds (pick : α → Lexeme → List Lexeme → Option β) (body : β → α → Read σ α) :
    α → List Lexeme → σ → α → List Lexeme → σ → Prop
  | none {a : α} {ts : List Lexeme} {s : σ} : SomeRounds pick body a ts s a ts s
  | round {a c d : α} {b : β} {t : Lexeme} {ts between rest : List Lexeme} {s s₁ s₂ : σ}
      (picked : pick a t ts = some b) (once : Reads (body b a) ts s c between s₁)
      (more : SomeRounds pick body c between s₁ d rest s₂) :
      SomeRounds pick body a (t :: ts) s d rest s₂

section
variable {pick : α → Lexeme → List Lexeme → Option β} {body : β → α → Read σ α}
  {ts rest : List Lexeme} {s s' : σ} {a c : α}

theorem SomeRounds.preserves {P : α → List Lexeme → σ → Prop}
    (step : ∀ a t ts s b c between s', pick a t ts = some b → P a (t :: ts) s →
      Reads (body b a) ts s c between s' → P c between s')
    (rounds : SomeRounds pick body a ts s c rest s') (start : P a ts s) : P c rest s' := by
  induction rounds with
  | none => exact start
  | round picked once _ ih => exact ih (step _ _ _ _ _ _ _ _ picked start once)

theorem SomeRounds.snoc {b : β} {t : Lexeme} {left : List Lexeme} {d : α} {now : σ}
    (rounds : SomeRounds pick body a ts s c (t :: left) now) (picked : pick c t left = some b)
    (once : Reads (body b c) left now d rest s') : SomeRounds pick body a ts s d rest s' := by
  generalize same : t :: left = reached at rounds
  induction rounds with
  | none =>
    subst same
    exact .round picked once .none
  | round first here _ ih => exact .round first here (ih picked once same)

/-- A loop fails in one of its rounds. -/
theorem whileNext_error {e : Failure Complaint} (failed : whileNext pick body a ts s = .error e) :
    ∃ c t left now b, SomeRounds pick body a ts s c (t :: left) now ∧
      pick c t left = some b ∧ body b c left now = .error e := by
  suffices rounds : ∀ (n : Nat) (a : α) (ts : List Lexeme) (s : σ), ts.length ≤ n →
      whileNext.go pick body a ts s = .error e → ∃ c t left now b,
        SomeRounds pick body a ts s c (t :: left) now ∧ pick c t left = some b ∧
          body b c left now = .error e from
    rounds _ a ts s (Nat.le_refl _) failed
  intro n
  induction n with
  | zero =>
    intro a ts s size failed
    obtain rfl := List.eq_nil_of_length_eq_zero (Nat.le_zero.mp size)
    rw [whileNext.go] at failed
    cases failed
  | succ n ih =>
    intro a ts s size failed
    cases ts with
    | nil =>
      rw [whileNext.go] at failed
      cases failed
    | cons t ts =>
      rw [whileNext.go] at failed
      split at failed
      · cases failed
      · rename_i b picked
        split at failed
        · rename_i e' here
          cases failed
          exact ⟨a, t, ts, s, b, .none, picked, here⟩
        · rename_i c between h now once
          split at failed
          · rename_i e' later
            cases failed
            have shorter := h.length_le
            obtain ⟨d, u, left, last, b', rounds, picked', here⟩ :=
              ih c between now (by simp at size; omega) later
            exact ⟨d, u, left, last, b', .round picked ⟨h, once⟩ rounds, picked', here⟩
          · cases failed

theorem Safe.loop (safe : ∀ b a, Safe (body b a)) : Safe (whileNext pick body a) where
  inside := by
    intro ts s bad
    obtain ⟨c, t, left, now, b, -, -, here⟩ := whileNext_error bad
    exact (safe b c).inside _ _ here

instance [safe : ∀ b a, Safe (body b a)] : Safe (whileNext pick body a) := .loop safe

end

/-! The readers. -/

instance : Safe (readTy : Read σ Ty) :=
  Safe.bind inferInstance fun start => Safe.bind inferInstance fun next => by
    split
    · split <;> infer_instance
    · infer_instance
    · infer_instance
    · infer_instance
    · infer_instance

instance (ty : Ty) : Safe (readConstant? ty : Read σ (Option Constant)) :=
  Safe.bind inferInstance fun next => by split <;> infer_instance

instance : Safe (readWord32 : Read σ UInt32) :=
  Safe.bind inferInstance fun start => Safe.bind inferInstance fun value => by
    split <;> infer_instance

instance : Safe (skipAttributes : Read σ Unit) :=
  .loop fun attr _ => by cases attr <;> infer_instance

section
variable (m : Module) (ty : Ty)

instance (start : Nat) (name : String) : Safe (addLocal start name ty) :=
  Safe.bind inferInstance fun scope => by split <;> infer_instance

private theorem retype_of_named {f : Function} {name : String} {id : ValueId}
    (found : f.valueNamed? name = some id) : (f.retype id ty).isSome := by
  obtain ⟨v, here, -⟩ := valueNamed?_eq_some found
  rw [Function.retype, here]
  rfl

/-- A named value has a place in the table, where it can get another type. -/
instance (start : Nat) (name : String) : Safe (defineLocal start name ty) := by
  refine Safe.bind inferInstance fun scope => ?_
  split
  · infer_instance
  · rename_i id found
    split
    · infer_instance
    · obtain ⟨f, retyped⟩ := Option.isSome_iff_exists.mp (retype_of_named ty found)
      rw [retyped]
      infer_instance

instance : Safe (readOperand m.symbol? ty) := by
  refine Safe.bind inferInstance fun next => ?_
  split
  · refine Safe.bind inferInstance fun _ => Safe.bind inferInstance fun scope => ?_
    split <;> infer_instance
  · refine Safe.bind inferInstance fun _ => ?_
    split <;> infer_instance
  · refine Safe.bind inferInstance fun c => ?_
    split <;> infer_instance

instance : Safe readBlock := by
  refine Safe.bind inferInstance fun start => Safe.bind inferInstance fun name =>
    Safe.bind inferInstance fun scope => ?_
  split <;> infer_instance

instance : Safe (expectComma : Read σ Unit) := by unfold expectComma; infer_instance

instance (text : String) : Safe (expectWord text : Read σ Unit) := by unfold expectWord; infer_instance

instance : Safe readLabel := by unfold readLabel; infer_instance

instance : Safe (readPointer m.symbol?) := by unfold readPointer; infer_instance

instance : Safe (readArg m.symbol?) := by unfold readArg; infer_instance

instance : Safe (readArgs m.symbol?) := by unfold readArgs; infer_instance

instance : Safe (readSite m ty) := by
  refine Safe.bind inferInstance fun next => ?_
  split <;> infer_instance

instance : Safe (readCallSite m.symbol?) := by
  rw [readCallSite_eq]
  infer_instance

instance : Safe (readEdge m.symbol? ty) := by unfold readEdge; infer_instance

instance : Safe (readFlags : Read σ (Bool × Bool)) :=
  .loop fun text flags => by cases flags; infer_instance

instance (op : Arith) : Safe (readArith m.symbol? op) := by
  unfold readArith; infer_instance

instance (op : Conversion) : Safe (readConversion m.symbol? op) := by unfold readConversion; infer_instance

instance : Safe (readComparison m.symbol?) := Safe.bind inferInstance fun text => by split <;> infer_instance

instance : Safe (readLoad m.symbol?) := by unfold readLoad; infer_instance

instance : Safe (readStore m.symbol?) := by unfold readStore; infer_instance

instance : Safe (readPhi m.symbol?) := by unfold readPhi; infer_instance

instance : Safe (readInvoke m.symbol?) := by unfold readInvoke; infer_instance

instance : Safe (readBranch m.symbol?) := by unfold readBranch; infer_instance

instance : Safe (readReturn m.symbol?) := by unfold readReturn; infer_instance

instance (opcode : String) : Safe (readOperation m.symbol? opcode) := by
  unfold readOperation
  split
  · infer_instance
  · infer_instance
  · split <;> infer_instance

instance : Safe (readAttachment : Read σ (Option UInt32)) :=
  Safe.bind inferInstance fun next => Safe.bind inferInstance fun _ => by
    split <;> infer_instance

instance : Safe (readTrailer : Read σ Trailer) := by
  refine .loop fun kind trailer => Safe.bind inferInstance fun _ => ?_
  cases kind with
  | none => infer_instance
  | some kind => exact Safe.bind inferInstance fun node => by split <;> infer_instance

instance (first : Lexeme) : Safe (readOpcode first : Read σ (Option String × String)) :=
  Safe.bind inferInstance fun next => by split <;> infer_instance

instance (start : Nat) (opcode : String) (op : Operation) (inst : Instruction)
    (result : Option String) : Safe (readResult start opcode op inst result) := by
  cases result <;> unfold readResult <;> infer_instance

instance (first : Lexeme) : Safe (readInstruction m.symbol? first) := by
  rw [readInstruction_eq]
  infer_instance

instance : Safe (addLabels found) := by
  induction found with
  | nil => exact inferInstanceAs (Safe (pure ()))
  | cons label found ih =>
    refine Safe.bind inferInstance fun scope => ?_
    split <;> infer_instance

end

end

end BlockTally.Listing
