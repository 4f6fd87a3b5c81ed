import BlockTally.Proofs.Tally.Effect

/-! Passes that run in order, each judged before the next: a module that is valid stays so, or the
first pass that fails or spoils it is named. Main statement: `Pass.runAll_outcome`. -/
namespace BlockTally

namespace Pass

/-- What a pass leaves unchanged when it says so. It says nothing of a pass that fails. -/
def Honest (pass : Pass) : Prop := ∀ m m', pass.run m = (.ok false, m') → m' = m

/-- What a pass that succeeded answered, and the module it left. -/
structure Turn where
  changed : Bool
  left : Module

/-- The module behind the last turn. -/
def left (m : Module) (turns : List Turn) : Module := turns.foldl (fun _ turn => turn.left) m

/-- The passes succeed one behind the other, each on what the pass before it left. -/
inductive Ran : Module → List Pass → List Turn → Prop
  | nil (m : Module) : Ran m [] []
  | cons {m : Module} {pass : Pass} {passes : List Pass} {turn : Turn} {turns : List Turn} :
    pass.run m = (.ok turn.changed, turn.left) → Ran turn.left passes turns →
      Ran m (pass :: passes) (turn :: turns)

/-- The pass stops a run in which every change is verified: by its own failure, or because what it
left is not valid. -/
def Stops (pass : Pass) (m : Module) (e : Failure PassError) (m' : Module) : Prop :=
  pass.run m = (.error e, m') ∨
    pass.run m = (.ok true, m') ∧ m'.isValid = false ∧
      e = .refused (.verificationFailed pass.name m'.defects)

section
variable {pass : Pass} {passes : List Pass} {m m' : Module}

private theorem runAll_of_stops (stops : pass.Stops m e m') (passes : List Pass) :
    runAll true (pass :: passes) m = (.error e, m') := by
  rcases stops with failed | ⟨changed, broken, rfl⟩
  · exact Edit.bind_of_error failed
  · have judged := verify_eq pass m'
    rw [broken] at judged
    rw [runAll, Edit.bind_of_ok changed]
    exact Edit.bind_of_error judged

/-- A pass whose change is verified, or that made none, hands over to those behind it. -/
theorem runAll_of_passes {changed : Bool} {between : Module}
    (ran : pass.run m = (.ok changed, between)) (sound : changed = true → between.isValid = true)
    (passes : List Pass) : runAll true (pass :: passes) m =
      ((runAll true passes between).1.map (· || changed), (runAll true passes between).2) := by
  have rest : (runAll true passes >>= fun more => pure (more || changed)) between =
      ((runAll true passes between).1.map (· || changed), (runAll true passes between).2) := by
    match run : runAll true passes between with
    | (.ok more, m') => exact Edit.bind_of_ok run
    | (.error e, m') => exact Edit.bind_of_error run
  rw [runAll, Edit.bind_of_ok ran]
  cases changed with
  | false => exact rest
  | true =>
    have judged := verify_eq pass between
    rw [if_pos (sound rfl)] at judged
    exact (Edit.bind_of_ok judged).trans rest

/-- An honest pass on a valid module stops the run, or leaves a valid module. -/
theorem turn_cases (honest : pass.Honest) (valid : m.isValid = true) :
    (∃ e m', pass.Stops m e m') ∨ ∃ turn : Turn, pass.run m = (.ok turn.changed, turn.left) ∧
      turn.left.isValid = true ∧ (turn.changed = false → turn.left = m) := by
  match ran : pass.run m with
  | (.error e, m') => exact .inl ⟨e, m', .inl ran⟩
  | (.ok false, m') =>
    obtain rfl := honest m m' ran
    exact .inr ⟨⟨false, m'⟩, rfl, valid, fun _ => rfl⟩
  | (.ok true, m') =>
    cases sound : m'.isValid with
    | false => exact .inl ⟨_, m', .inr ⟨ran, sound, rfl⟩⟩
    | true => exact .inr ⟨⟨true, m'⟩, rfl, sound, nofun⟩

/-- What a run that succeeds has done. -/
structure Succeeded (m : Module) (passes : List Pass) (changed : Bool) (m' : Module) : Prop where
  valid : m'.isValid = true
  turns : ∃ turns, Ran m passes turns ∧ m' = left m turns ∧ changed = turns.any (·.changed)
  unchanged : changed = false → m' = m

/-- What a run that fails has done: up to the pass that stops it every pass succeeded and left a valid
module, and it is the same run whatever passes are behind that one. -/
def Failed (m : Module) (passes : List Pass) (e : Failure PassError) (m' : Module) : Prop :=
  ∃ before pass behind turns, passes = before ++ pass :: behind ∧ Ran m before turns ∧
    (∀ turn ∈ turns, turn.left.isValid = true) ∧ pass.Stops (left m turns) e m' ∧
    ∀ others, runAll true (before ++ pass :: others) m = (.error e, m')

theorem Succeeded.cons {turn : Turn} {more : Bool}
    (ran : pass.run m = (.ok turn.changed, turn.left)) (kept : turn.changed = false → turn.left = m)
    (rest : Succeeded turn.left passes more m') :
    Succeeded m (pass :: passes) (more || turn.changed) m' := by
  obtain ⟨valid, ⟨turns, run, last, answers⟩, unchanged⟩ := rest
  refine ⟨valid, ⟨turn :: turns, .cons ran run, last, ?_⟩, ?_⟩
  · rw [answers, List.any_cons, Bool.or_comm]
  · intro neither
    obtain ⟨still, quiet⟩ := Bool.or_eq_false_iff.mp neither
    rw [unchanged still, kept quiet]

theorem Failed.cons {turn : Turn} (ran : pass.run m = (.ok turn.changed, turn.left))
    (sound : turn.left.isValid = true) (rest : Failed turn.left passes e m') :
    Failed m (pass :: passes) e m' := by
  obtain ⟨before, stopper, behind, turns, rfl, run, valid, stops, alike⟩ := rest
  refine ⟨pass :: before, stopper, behind, turn :: turns, rfl, .cons ran run, ?_, stops, ?_⟩
  · exact List.forall_mem_cons.mpr ⟨sound, valid⟩
  · intro others
    rw [List.cons_append, runAll_of_passes ran fun _ => sound, alike others]
    rfl

/-- Honest passes on a valid module, with every change verified. -/
theorem runAll_outcome (honest : ∀ pass ∈ passes, pass.Honest) (valid : m.isValid = true) :
    (∀ changed m', runAll true passes m = (.ok changed, m') → Succeeded m passes changed m') ∧
    ∀ e m', runAll true passes m = (.error e, m') → Failed m passes e m' := by
  -- Validity is carried along: a module that is not judged is the one from before.
  induction passes generalizing m with
  | nil =>
    refine ⟨?_, ?_⟩
    · rintro changed m' ⟨⟩
      exact ⟨valid, ⟨[], .nil m, rfl, rfl⟩, fun _ => rfl⟩
    · rintro e m' ⟨⟩
  | cons pass passes ih =>
    obtain ⟨first, others⟩ := List.forall_mem_cons.mp honest
    rcases turn_cases first valid with ⟨e, m', stops⟩ | ⟨turn, ran, sound, kept⟩
    · rw [runAll_of_stops stops]
      refine ⟨?_, ?_⟩
      · rintro _ _ ⟨⟩
      · rintro _ _ ⟨⟩
        exact ⟨[], pass, passes, [], rfl, .nil m, List.forall_mem_nil _, stops,
          runAll_of_stops stops⟩
    · obtain ⟨succeeds, fails⟩ := ih others sound
      have whole := runAll_of_passes ran (fun _ => sound) passes
      match rest : runAll true passes turn.left with
      | (.ok more, m') =>
        rw [rest] at whole
        rw [whole]
        refine ⟨?_, ?_⟩
        · rintro _ _ ⟨⟩
          exact .cons ran kept (succeeds more m' rest)
        · rintro _ _ ⟨⟩
      | (.error e, m') =>
        rw [rest] at whole
        rw [whole]
        refine ⟨?_, ?_⟩
        · rintro _ _ ⟨⟩
        · rintro _ _ ⟨⟩
          exact .cons ran sound (fails e m' rest)

end

end Pass

namespace Tally

private theorem pass_honest (s : Settings) : (pass s).Honest := fun _ _ ran => count_unchanged ran

/-- Changes nothing. -/
def idle : Pass := ⟨"idle", return false⟩

/-- Puts a second terminator behind the first. -/
def spoil : Pass where
  name := "spoil"
  run := .change fun m => (true, { m with functions := m.functions.map fun f => { f with
    blocks := f.blocks.map (Block.push { op := .unreachable }) } })

private theorem idle_honest : idle.Honest := by
  rintro m m' ⟨⟩
  rfl

private theorem spoil_honest : spoil.Honest := by
  rintro m m' ⟨⟩

/-- A run that succeeds, one that its second pass spoils, and one that it refuses. -/
theorem runAll_outcome_idle : (∀ p ∈ [pass {}, idle], p.Honest) ∧
    (∀ p ∈ [idle, spoil, pass {}], p.Honest) ∧
    (∀ p ∈ [idle, pass { entry := "other" }, spoil], p.Honest) ∧
    ∃ m, m.isValid = true ∧ (∃ m', Pass.Succeeded m [pass {}, idle] true m') ∧
      (∃ m', Pass.Failed m [idle, spoil, pass {}]
        (.refused (.verificationFailed "spoil" [.terminatorNotLast "main" ""])) m') ∧
      Pass.Failed m [idle, pass { entry := "other" }, spoil] (.refused (.missingEntry "other")) m := by
  have counts : ∀ p ∈ [pass {}, idle], p.Honest := by simp [pass_honest, idle_honest]
  have spoils : ∀ p ∈ [idle, spoil, pass {}], p.Honest := by
    simp [pass_honest, idle_honest, spoil_honest]
  have refuses : ∀ p ∈ [idle, pass { entry := "other" }, spoil], p.Honest := by
    simp [pass_honest, idle_honest, spoil_honest]
  have valid : Module.isValid { name := "m", functions := [returning "main"] } = true := rfl
  obtain ⟨succeeds, -⟩ := Pass.runAll_outcome counts valid
  obtain ⟨-, spoiled⟩ := Pass.runAll_outcome spoils valid
  obtain ⟨-, refused⟩ := Pass.runAll_outcome refuses valid
  refine ⟨counts, spoils, refuses, _, valid, ?_, ?_, ?_⟩
  · obtain ⟨m', ran, sound⟩ : ∃ m', (pass {}).run { name := "m", functions := [returning "main"] } =
        (.ok true, m') ∧ m'.isValid = true :=
      ⟨_, Edit.run_of_fst (by decide +kernel), by decide +kernel⟩
    exact ⟨m', succeeds true m' (Pass.runAll_of_passes ran (fun _ => sound) [idle])⟩
  · exact ⟨_, spoiled _ _ (Edit.run_of_fst (by decide +kernel))⟩
  · exact refused _ _ (by decide +kernel)

end Tally

end BlockTally
