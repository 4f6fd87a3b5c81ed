import BlockTally.Proofs.Listing.Beyond

/-! Where complaints are made. A complaint is made at a token or at the end of the text; one that names
a word is made at that word, but for those on an opcode or a comparison, which are made at the token
behind. Here that is said of a step of reading, and shown of the steps that all readers are made of. -/
namespace BlockTally.Listing
open Read

/-- The token that a complaint about one word names. -/
def Cause.named? : Cause → Option Token
  | .unexpectedWord word | .unknownTarget word | .unsupportedTy word | .invalidConstant word _
  | .unsupportedInstruction word | .unknownComparison word => some (.word word)
  | .undefinedValue name | .undefinedLabel name => some (.localName name)
  | .undefinedSymbol name => some (.globalName name)
  | _ => none

/-- An opcode and a comparison are taken before they are judged, so that the complaint comes late. -/
def Cause.isLate : Cause → Bool
  | .unsupportedInstruction _ | .unknownComparison _ => true
  | _ => false

private theorem shows_quoted {message mark text : String} (lead trail : String)
    (split : message = lead ++ mark ++ text ++ ("`" ++ trail) := by
      simp only [String.reduceAppend]) :
    ∃ lead trail, message = lead ++ (mark ++ text ++ "`") ++ trail :=
  ⟨lead, trail, by rw [split]; simp only [String.append_assoc]⟩

/-- The message shows the token as messages show tokens. -/
theorem Cause.message_named {cause : Cause} {token : Token} (named : cause.named? = some token) :
    ∃ lead trail, cause.message = lead ++ token.described ++ trail := by
  cases cause <;> cases named <;> unfold message
  case unexpectedWord => exact shows_quoted "unexpected " " at top level"
  case unknownTarget => exact shows_quoted "unknown target property " ""
  case unsupportedTy => exact shows_quoted "unsupported type " ""
  case invalidConstant word ty =>
    have between : "` for `" = "`" ++ " for `" := by simp only [String.reduceAppend]
    refine shows_quoted "invalid constant " (" for `" ++ ty.text ++ "`") ?_
    simp only [between, ← String.append_assoc, String.reduceAppend]
  case unsupportedInstruction => exact shows_quoted "unsupported instruction " ""
  case unknownComparison => exact shows_quoted "unknown predicate " ""
  case undefinedValue => exact shows_quoted "use of undefined value " ""
  case undefinedSymbol => exact shows_quoted "use of undefined symbol " ""
  case undefinedLabel => exact shows_quoted "use of undefined label " ""

/-- The place is the start of a token, or the end. -/
def Spot (all : List Lexeme) (place : Option Nat) : Prop :=
  ∀ start ∈ place, ∃ t ∈ all, t.start = start

/-- A token that stands right in front of `ts`. -/
def Behind (all ts : List Lexeme) (token : Token) : Prop :=
  ∃ before t, all = before ++ t :: ts ∧ t.token = token

/-- A complaint about these tokens, with the place where it is made. -/
inductive Pointed (all : List Lexeme) : Complaint → Prop
  | plain {place : Option Nat} {cause : Cause} (spot : Spot all place)
      (unnamed : cause.named? = none) : Pointed all ⟨place, cause⟩
  | word {t : Lexeme} {cause : Cause} (mem : t ∈ all) (named : cause.named? = some t.token)
      (early : cause.isLate = false) : Pointed all ⟨some t.start, cause⟩
  | behind {ts : List Lexeme} {cause : Cause} {token : Token} (behind : Behind all ts token)
      (named : cause.named? = some token) (late : cause.isLate = true) :
      Pointed all ⟨ts.head?.map Lexeme.start, cause⟩

section
variable {σ α β : Type} {all ts : List Lexeme} {t : Lexeme} {token : Token} {s : σ} {I : σ → Prop}
  {cause : Cause} {start : Option Nat}

theorem Spot.head (inside : ts <:+ all) : Spot all (ts.head?.map Lexeme.start) := by
  intro start mem
  obtain ⟨t, first, rfl⟩ := Option.map_eq_some_iff.mp mem
  exact ⟨t, inside.subset (List.mem_of_mem_head? first), rfl⟩

theorem Spot.of_mem (mem : t ∈ all) : Spot all (some t.start) := by
  rintro _ ⟨⟩
  exact ⟨t, mem, rfl⟩

theorem Behind.of_suffix (inside : t :: ts <:+ all) : Behind all ts t.token := by
  obtain ⟨before, rfl⟩ := inside
  exact ⟨before, t, rfl, rfl⟩

/-- A complaint about the next token, at its place. -/
theorem Pointed.next (inside : ts <:+ all) (next : ts.head?.map Lexeme.token = some token)
    (named : cause.named? = some token) (early : cause.isLate = false) :
    Pointed all ⟨ts.head?.map Lexeme.start, cause⟩ := by
  obtain ⟨t, first, rfl⟩ := Option.map_eq_some_iff.mp next
  rw [first]
  exact .word (inside.subset (List.mem_of_mem_head? first)) named early

/-- From these tokens and this state, the step keeps `I`, and a complaint of it is made where it
belongs. -/
structure PointsAt (all : List Lexeme) (I : σ → Prop) (m : Read σ α) (ts : List Lexeme) (s : σ) :
    Prop where
  keeps : ∀ {a rest s'}, Reads m ts s a rest s' → I s'
  points : ∀ {c}, m ts s = .error (.refused c) → Pointed all c

/-- That holds wherever the step is made among the tokens. -/
class Points (all : List Lexeme) (I : σ → Prop) (m : Read σ α) : Prop where
  here : ∀ {ts s}, ts <:+ all → I s → PointsAt all I m ts s

theorem PointsAt.of_ok {m : Read σ α} {a : α} {left : Rest ts} {s' : σ}
    (ok : m ts s = .ok (a, left, s')) (holds : I s') : PointsAt all I m ts s where
  keeps read := by
    obtain ⟨-, -, rfl⟩ := (reads_of_eq_ok ok).unique read
    exact holds
  points failed := by
    rw [ok] at failed
    cases failed

theorem PointsAt.refuseAt (pointed : Pointed all ⟨start, cause⟩) :
    PointsAt all I (refuseAt start cause : Read σ α) ts s where
  keeps read := absurd read reads_refuseAt
  points failed := by
    cases failed
    exact pointed

theorem PointsAt.refuse (pointed : Pointed all ⟨ts.head?.map Lexeme.start, cause⟩) :
    PointsAt all I (refuse cause : Read σ α) ts s where
  keeps read := absurd read reads_refuse
  points failed := by
    cases failed
    exact pointed

theorem PointsAt.bind {m : Read σ α} {f : α → Read σ β} (first : PointsAt all I m ts s)
    (second : ∀ a rest s', Reads m ts s a rest s' → I s' → PointsAt all I (f a) rest s') :
    PointsAt all I (m >>= f) ts s where
  keeps read := by
    obtain ⟨a, between, s', here, there⟩ := reads_bind.mp read
    exact (second a between s' here (first.keeps here)).keeps there
  points failed := by
    rcases bind_error failed with here | ⟨a, rest, s', here, there⟩
    · exact first.points here
    · exact (second a rest s' here (first.keeps here)).points there

/-- The step that follows may rely on what is known of the result. -/
theorem Points.known {m : Read σ α} {f : α → Read σ β} {V : α → Prop} [first : Points all I m]
    (value : ∀ {ts s a rest s'}, ts <:+ all → I s → Reads m ts s a rest s' → V a)
    (second : ∀ a, V a → Points all I (f a)) : Points all I (m >>= f) where
  here inside holds := (first.here inside holds).bind fun a _ _ read kept =>
    (second a (value inside holds read)).here (read.suffix.trans inside) kept

theorem Points.bind {m : Read σ α} {f : α → Read σ β} (first : Points all I m)
    (second : ∀ a, Points all I (f a)) : Points all I (m >>= f) :=
  .known (V := fun _ => True) (fun _ _ _ => trivial) fun a _ => second a

instance {m : Read σ α} {f : α → Read σ β} [first : Points all I m]
    [second : ∀ a, Points all I (f a)] : Points all I (m >>= f) := first.bind second

instance {p : Prop} [Decidable p] {m m' : Read σ α} [Points all I m] [Points all I m'] :
    Points all I (if p then m else m') := by
  split <;> infer_instance

/-- Steps that always succeed and change nothing. -/
theorem Points.of_ok {m : Read σ α} (ok : ∀ ts s, ∃ a left, m ts s = .ok (a, left, s)) :
    Points all I m where
  here {ts s} _ holds := by
    obtain ⟨a, left, same⟩ := ok ts s
    exact .of_ok same holds

instance (a : α) : Points all I (pure a : Read σ α) := .of_ok fun _ _ => ⟨_, _, rfl⟩

instance : Points all I (state : Read σ σ) := .of_ok fun _ _ => ⟨_, _, rfl⟩

instance : Points all I (ahead : Read σ (List Lexeme)) := .of_ok fun _ _ => ⟨_, _, rfl⟩

instance (f : (ts : List Lexeme) → Rest ts) : Points all I (advance f : Read σ Unit) :=
  .of_ok fun _ _ => ⟨_, _, rfl⟩

theorem Points.update {f : σ → σ} (keeps : ∀ s, I s → I (f s)) : Points all I (update f) where
  here _ holds := .of_ok rfl (keeps _ holds)

instance : Points all I (outOfRange : Read σ α) where
  here _ _ := ⟨fun read => absurd read reads_outOfRange, nofun⟩

instance (found : Option α) : Points all I (present found : Read σ α) := by
  cases found <;> unfold present <;> infer_instance

theorem Points.refuseAt (pointed : Pointed all ⟨start, cause⟩) :
    Points all I (refuseAt start cause : Read σ α) where
  here _ _ := .refuseAt pointed

theorem Points.refuse (unnamed : cause.named? = none) :
    Points all I (refuse cause : Read σ α) where
  here inside _ := .refuse (.plain (.head inside) unnamed)

instance : Points all I (peek : Read σ _) := by unfold peek; infer_instance

instance : Points all I (peekToken : Read σ _) := by unfold peekToken; infer_instance

instance : Points all I (place : Read σ _) := by unfold place; infer_instance

/-- The place is where the next token starts. -/
theorem Points.place {f : Option Nat → Read σ α}
    (second : ∀ start, Spot all start → Points all I (f start)) : Points all I (place >>= f) :=
  .known (fun inside _ read => (reads_place.mp read).1 ▸ .head inside) second

/-- The next token is one of all. -/
theorem Points.peek {f : Option Lexeme → Read σ α}
    (second : ∀ next, (∀ t ∈ next, t ∈ all) → Points all I (f next)) :
    Points all I (peek >>= f) :=
  .known (fun inside _ read _ mem =>
    inside.subset (List.mem_of_mem_head? ((reads_peek.mp read).1 ▸ mem))) second

/-- What follows may complain about the next token. -/
theorem Points.peekToken {f : Option Token → Read σ α}
    (second : ∀ ts s, ts <:+ all → I s → PointsAt all I (f (ts.head?.map Lexeme.token)) ts s) :
    Points all I (peekToken >>= f) where
  here inside holds := by
    refine PointsAt.bind (Points.here inside holds) fun next rest s' read kept => ?_
    obtain ⟨rfl, rfl, rfl⟩ := reads_peekToken.mp read
    exact second _ _ inside kept

theorem Points.state {f : σ → Read σ α} (second : ∀ s, I s → Points all I (f s)) :
    Points all I (state >>= f) :=
  .known (fun _ holds read => (reads_state.mp read).1 ▸ holds) second

instance (what : Wanted) : Points all I (unexpected what : Read σ α) :=
  Points.bind inferInstance fun _ => .refuse rfl

instance : Points all I (skip : Read σ Unit) := by unfold skip; infer_instance

instance (p : Lexeme → Bool) : Points all I (skipWhile p : Read σ Unit) := by
  unfold skipWhile; infer_instance

instance (f : Token → Option α) : Points all I (accept f : Read σ (Option α)) :=
  Points.bind inferInstance fun next => by split <;> infer_instance

instance (what : Wanted) (f : Token → Option α) : Points all I (demand what f : Read σ α) :=
  Points.bind inferInstance fun found => by split <;> infer_instance

/-- What follows may complain about the token that was demanded, at its place. -/
theorem Points.demand {what : Wanted} {f : Token → Option α} {g : Option Nat → α → Read σ β}
    (second : ∀ t a, t ∈ all → f t.token = some a → Points all I (g (some t.start) a)) :
    Points all I (Read.place >>= fun start => Read.demand what f >>= g start) where
  here inside holds := by
    refine PointsAt.bind (Points.here inside holds) fun start rest s' placed kept => ?_
    obtain ⟨rfl, rfl, rfl⟩ := reads_place.mp placed
    refine PointsAt.bind (Points.here inside kept) fun a rest s'' read kept => ?_
    obtain ⟨t, rfl, known, rfl⟩ := reads_demand.mp read
    exact (second t a (inside.subset List.mem_cons_self) known).here
      ((List.suffix_cons t rest).trans inside) kept

instance (t : Token) : Points all I (eat t : Read σ Bool) := by unfold eat; infer_instance

instance (t : Token) : Points all I (expect t : Read σ Unit) := by unfold expect; infer_instance

instance (what : Wanted) : Points all I (word what : Read σ String) := by
  unfold word; infer_instance

instance {m : Read σ α} [points : Points all I m] : Points all I (traced m) where
  here {ts s} inside holds := by
    have here := points.here inside holds
    refine ⟨fun {a _ _} read => ?_, fun failed => ?_⟩
    · obtain ⟨a, took⟩ := a
      exact here.keeps (reads_traced.mp read).1
    · unfold traced at failed
      split at failed
      · rename_i e refused
        cases failed
        exact here.points refused
      · cases failed

instance {m : Read σ Unit} [Points all I m] : Points all I (taken m) := by
  unfold taken; infer_instance

theorem Points.closeGroup {opening closing : Punct} (pointed : Pointed all ⟨start, cause⟩) :
    Points all I (closeGroup opening closing start cause : Read σ Unit) where
  here _ holds := by
    refine ⟨fun read => (reads_closeGroup.mp read).2 ▸ holds, fun failed => ?_⟩
    unfold Read.closeGroup at failed
    split at failed <;> cases failed
    exact pointed

instance (opening closing : Punct) : Points all I (group opening closing : Read σ Unit) :=
  .place fun _ spot => Points.bind inferInstance fun _ => .closeGroup (.plain spot rfl)

instance : Points all I (optionalGroup : Read σ Unit) := by unfold optionalGroup; infer_instance

section
variable {pick : α → Lexeme → List Lexeme → Option β} {body : β → α → Read σ α} {a : α}

theorem PointsAt.loop (inside : ts <:+ all) (holds : I s)
    (each : ∀ c t left s b, t :: left <:+ all → I s → pick c t left = some b →
      PointsAt all I (body b c) left s) : PointsAt all I (whileNext pick body a) ts s := by
  have step : ∀ c t left s b d between s', pick c t left = some b → t :: left <:+ all ∧ I s →
      Reads (body b c) left s d between s' → between <:+ all ∧ I s' := by
    rintro c t left s b d between s' picked ⟨inside, holds⟩ once
    exact ⟨once.suffix.trans ((List.suffix_cons t left).trans inside),
      (each c t left s b inside holds picked).keeps once⟩
  refine ⟨fun read => ?_, fun failed => ?_⟩
  · exact ((reads_whileNext.mp read).preserves (P := fun _ left s => left <:+ all ∧ I s) step
      ⟨inside, holds⟩).2
  · obtain ⟨c, t, left, s', b, rounds, picked, here⟩ := whileNext_error failed
    have known := rounds.preserves (P := fun _ left s => left <:+ all ∧ I s) step ⟨inside, holds⟩
    exact (each c t left s' b known.1 known.2 picked).points here

theorem Points.loop (each : ∀ b a, Points all I (body b a)) :
    Points all I (whileNext pick body a) where
  here inside holds := .loop inside holds fun c t left _ b inside holds _ =>
    (each b c).here ((List.suffix_cons t left).trans inside) holds

instance [each : ∀ b a, Points all I (body b a)] : Points all I (whileNext pick body a) :=
  .loop each

end

end

end BlockTally.Listing
