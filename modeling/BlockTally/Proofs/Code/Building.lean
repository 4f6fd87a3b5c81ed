import BlockTally.Proofs.Code.Insertion
import Mathlib.Data.List.ReduceOption

/-! Building by a run of actions. An action is refused or puts one instruction in, and the room for
more moves on with the position. Main statements: `Action.step_refused`, `runAll_landed`. -/
namespace BlockTally

/-- The last position at which an instruction may be put in: before the terminator, or the end. -/
def Block.room (b : Block) : Nat := b.terminatorIndex?.getD b.insts.length

theorem Block.room_le (b : Block) : b.room ≤ b.insts.length := by
  unfold room terminatorIndex?
  cases b.terminator? with
  | none => exact Nat.le_refl _
  | some last => exact Nat.sub_le _ _

/-- What may be put in leaves the terminator last, and a block without one open. -/
theorem Block.terminator?_inserted {b : Block} {index : Nat} {inst : Instruction}
    (room : index ≤ b.room) (plain : inst.op.isTerminator = false) :
    (Block.mk b.name (b.insts.take index ++ inst :: b.insts.drop index)).terminator? =
      b.terminator? := by
  have behind : (b.insts.drop index).getLast? = if b.insts.length ≤ index then none
      else b.insts.getLast? := List.getLast?_drop
  simp only [terminator?, List.getLast?_append, List.getLast?_cons, behind]
  split
  · next ends =>
    -- The instruction goes to the end, which is no room where a terminator stands.
    cases last : b.terminator? with
    | none =>
      rw [terminator?] at last
      simp [plain, last]
    | some t =>
      obtain ⟨-, front, whole⟩ := terminator?_eq_some.mp last
      rw [Block.room, terminatorIndex?, last, Option.map_some, Option.getD_some] at room
      rw [whole] at room ends
      simp at room ends
      omega
  · next inside =>
    cases b.insts.getLast? with
    | none => simp_all
    | some last => simp

theorem Block.room_inserted {b : Block} {index : Nat} {inst : Instruction}
    (room : index ≤ b.room) (plain : inst.op.isTerminator = false) :
    (Block.mk b.name (b.insts.take index ++ inst :: b.insts.drop index)).room = b.room + 1 := by
  have size : (b.insts.take index ++ inst :: b.insts.drop index).length = b.insts.length + 1 := by
    rw [List.length_append, List.length_cons, List.length_take, List.length_drop]
    omega
  rw [Block.room, terminatorIndex?, terminator?_inserted room plain, size, Block.room, terminatorIndex?]
  cases last : b.terminator? with
  | none => rfl
  | some t =>
    obtain ⟨-, front, whole⟩ := terminator?_eq_some.mp last
    simp [whole]

namespace Insertion
variable {s s' : Insertion} {b : Block}

/-- The insertion with another text of its block, one step on. -/
def placing (s : Insertion) (b : Block) (inst : Instruction) : Insertion where
  function := s.function.setBlock s.block
    ⟨b.name, b.insts.take s.index ++ inst :: b.insts.drop s.index⟩
  block := s.block
  index := s.index + 1

/-- All that an insertion can do. -/
theorem insert_eq (inst : Instruction) (here : s.function.block? s.block = some b) :
    insert inst s = if s.index ≤ b.room ∧ inst.op.isTerminator = false then
      (.ok (), s.placing b inst)
    else (.error (.refused (.invalidInsertion b.name s.index)), s) := by
  by_cases allowed : s.index ≤ b.room ∧ inst.op.isTerminator = false
  · have inserted := Block.insert_eq_ok.mpr ⟨allowed, rfl⟩
    rw [insertIdx_within (Nat.le_trans allowed.1 b.room_le)] at inserted
    rw [if_pos allowed]
    simp only [insert, Edit.attempt, here, Failure.present, bind, Except.bind, inserted,
      Failure.mapError_ok]
    rfl
  · have refused : b.insert s.index inst = .error (.invalidInsertion b.name s.index) :=
      if_neg (by simpa [Block.room] using allowed)
    rw [if_neg allowed]
    simp only [insert, Edit.attempt, here, Failure.present, bind, Except.bind, refused]
    rfl

/-- An operation of building, with its arguments. -/
inductive Action where
  | insert (inst : Instruction)
  | load (ty : Ty) (ptr : Operand) (hint : String)
  | store (ty : Ty) (value ptr : Operand)
  | arith (op : Arith) (ty : Ty) (lhs rhs : Operand) (hint : String)
  | call (site : CallSite) (hint : String)

namespace Action

/-- The value that is defined, if one is. -/
def step : Action → Step (Option ValueId)
  | .insert inst => do
    Insertion.insert inst
    return none
  | .load ty ptr hint => some <$> Insertion.load ty ptr hint
  | .store ty value ptr => do
    Insertion.store ty value ptr
    return none
  | .arith op ty lhs rhs hint => some <$> Insertion.arith op ty lhs rhs hint
  | .call site hint => Insertion.call site hint

/-- The instruction, but for the value it defines. -/
def inst : Action → Instruction
  | .insert inst => inst
  | .load ty ptr _ => { op := .load ty ptr none }
  | .store ty value ptr => { op := .store ty value ptr none }
  | .arith op ty lhs rhs _ => { op := .arith op ty lhs rhs false false }
  | .call site _ => { op := .call site }

/-- The hint for the name of the value that the action defines. -/
def hint? : Action → Option String
  | .insert _ | .store .. => none
  | .load _ _ hint | .arith _ _ _ _ hint => some hint
  | .call site hint => if site.ret.isVoid then none else some hint

/-- The instruction as it is put in, with the value it defines. -/
def placed (a : Action) : Option ValueId → Instruction
  | none => a.inst
  | some id => { result := some id, op := a.inst.op }

/-- The value that is entered before the instruction is put in. -/
def entered (a : Action) (f : Function) : List Value :=
  a.hint?.toList.map fun hint =>
    ⟨freshName (f.values.map (·.name)) f.values.length hint, a.inst.op.resultTy, .instruction⟩

def result (a : Action) (f : Function) : Option ValueId := a.hint?.map fun _ => ⟨f.values.length⟩

private theorem placed_plain (a : Action) (plain : a.inst.op.isTerminator = false)
    (result : Option ValueId) :
    (a.placed result).op.isTerminator = false := by
  cases result <;> exact plain

/-- An action inserts its instruction, or defines a value by it. -/
theorem step_eq (a : Action) : a.step = match a.hint? with
    | none => do
      Insertion.insert a.inst
      return none
    | some hint => some <$> define a.inst.op hint := by
  cases a with
  | call site hint =>
    simp only [step, hint?, Insertion.call]
    split <;> rfl
  | _ => rfl

end Action

/-- The insertion with the values that an action enters. -/
def entering (s : Insertion) (a : Action) : Insertion :=
  { s with function := { s.function with values := s.function.values ++ a.entered s.function } }

/-- To define a value is to enter it and then to insert its instruction. -/
theorem Action.define_eq (a : Action) {hint : String} (given : a.hint? = some hint) :
    define a.inst.op hint s = (do
      Insertion.insert { result := some ⟨s.function.values.length⟩, op := a.inst.op }
      return ⟨s.function.values.length⟩ : Step ValueId) (s.entering a) := by
  have entered : s.entering a = { s with function := (s.function.addValue hint a.inst.op.resultTy
      .instruction).2 } := by
    simp [entering, entered, given, Function.addValue]
  rw [entered]
  rfl

/-- All that an action can do. A value is entered even where the instruction is refused. -/
theorem Action.step_result (a : Action) (here : s.function.block? s.block = some b) :
    a.step s = if s.index ≤ b.room ∧ a.inst.op.isTerminator = false then
      (.ok (a.result s.function), (s.entering a).placing b (a.placed (a.result s.function)))
    else (.error (.refused (.invalidInsertion b.name s.index)), s.entering a) := by
  rw [a.step_eq]
  cases given : a.hint? with
  | none =>
    have same : s.entering a = s := by simp [entering, entered, given]
    simp only [same, result, given, Option.map_none, placed]
    have inserted := insert_eq a.inst here
    split at inserted
    · next allowed => rw [if_pos allowed, Edit.bind_of_ok inserted]; rfl
    · next refused => rw [if_neg refused, Edit.bind_of_error inserted]
  | some hint =>
    let inst : Instruction := { result := some ⟨s.function.values.length⟩, op := a.inst.op }
    have inserted : Insertion.insert inst (s.entering a) =
        if s.index ≤ b.room ∧ a.inst.op.isTerminator = false then
          (.ok (), (s.entering a).placing b inst)
        else (.error (.refused (.invalidInsertion b.name s.index)), s.entering a) :=
      insert_eq (s := s.entering a) inst here
    simp only [result, given, Option.map_some, placed]
    split at inserted
    · next allowed =>
      have defined : define a.inst.op hint s =
          (.ok ⟨s.function.values.length⟩, (s.entering a).placing b inst) := by
        rw [a.define_eq given, Edit.bind_of_ok inserted]
        rfl
      rw [if_pos allowed]
      exact Edit.bind_of_ok defined
    · next refused =>
      have failed : define a.inst.op hint s =
          (.error (.refused (.invalidInsertion b.name s.index)), s.entering a) := by
        rw [a.define_eq given, Edit.bind_of_error inserted]
      rw [if_neg refused]
      exact Edit.bind_of_error failed

/-- A refused action leaves the position, the blocks and the values as they were, but for the value
that it was to define, which stays in the table: all is unchanged if and only if it defines none. -/
theorem Action.step_refused {a : Action} {e : Failure EditError}
    (here : s.function.block? s.block = some b) (failed : a.step s = (.error e, s')) :
    e = .refused (.invalidInsertion b.name s.index) ∧
    s' = { s with function := { s.function with
      values := s.function.values ++ a.entered s.function } } ∧
    (s' = s ↔ a.hint? = none) := by
  rw [a.step_result here] at failed
  split at failed
  · cases failed
  · cases failed
    refine ⟨rfl, rfl, ?_⟩
    constructor
    · intro same
      have values := congrArg (·.function.values) same
      simpa [entering, entered] using values
    · intro none
      simp [entering, entered, none]

/-- A function that ends at once. -/
def ending : Function where
  name := "main"
  ret := .void
  blocks := [⟨"", [{ op := .ret .void none }]⟩]

def loadOne : Action := .load .i64 (.constant .null) "old"

theorem Action.step_refused_loading :
    ending.block? ⟨0⟩ = some ⟨"", [{ op := .ret .void none }]⟩ ∧
    ∃ s', loadOne.step ⟨ending, ⟨0⟩, 1⟩ = (.error (.refused (.invalidInsertion "" 1)), s') ∧
      s' = ⟨{ ending with values := [⟨"old", .i64, .instruction⟩] }, ⟨0⟩, 1⟩ ∧
      (s' = ⟨ending, ⟨0⟩, 1⟩ ↔ loadOne.hint? = none) := by
  have here : ending.block? ⟨0⟩ = some ⟨"", [{ op := .ret .void none }]⟩ := rfl
  have failed : loadOne.step ⟨ending, ⟨0⟩, 1⟩ = (.error (.refused (.invalidInsertion "" 1)),
      ⟨{ ending with values := [⟨"old", .i64, .instruction⟩] }, ⟨0⟩, 1⟩) := rfl
  obtain ⟨-, after, unchanged⟩ := Action.step_refused here failed
  exact ⟨here, _, failed, after, unchanged⟩

/-- A refused load leaves its value in the table. -/
theorem loading_entered : ∃ s', loadOne.step ⟨ending, ⟨0⟩, 1⟩ =
      (.error (.refused (.invalidInsertion "" 1)), s') ∧
    s'.function.values = [⟨"old", .i64, .instruction⟩] ∧ ending.values = [] :=
  ⟨_, rfl, rfl, rfl⟩

/-- Actions one behind the other, up to the first that is refused, with the values they define. -/
def runAll : List Action → Step (List (Option ValueId))
  | [] => return []
  | a :: rest => do
    let result ← a.step
    return result :: (← runAll rest)

/-- The block with the instructions that were put in. -/
def extended (s : Insertion) (b : Block) (added : List Instruction) : Block :=
  ⟨b.name, b.insts.take s.index ++ added ++ b.insts.drop s.index⟩

private theorem block?_placing {inst : Instruction} (here : s.function.block? s.block = some b) :
    (s.placing b inst).function.block? s.block = some (s.extended b [inst]) := by
  rw [extended, List.append_assoc]
  exact Function.block?_setBlock _ here

private theorem extended_room {inst : Instruction} (room : s.index ≤ b.room)
    (plain : inst.op.isTerminator = false) : (s.extended b [inst]).room = b.room + 1 := by
  rw [extended, List.append_assoc]
  exact Block.room_inserted room plain

/-- What is put in by a first action and then by others, whose position is one further on. -/
theorem extended_placing {inst : Instruction} {added : List Instruction}
    (inside : s.index ≤ b.insts.length) :
    (s.placing b inst).extended (s.extended b [inst]) added = s.extended b (inst :: added) := by
  have front : (b.insts.take s.index ++ [inst]).length = s.index + 1 := by
    rw [List.length_append, List.length_take_of_le inside, List.length_singleton]
  simp only [extended, placing, Block.mk.injEq, true_and]
  rw [List.take_left' front, List.drop_left' front]
  simp

/-- A run succeeds if and only if there is room for its first action, and no action puts in a
terminator. -/
theorem runAll_succeeds_iff {actions : List Action} (here : s.function.block? s.block = some b) :
    (∃ results s', runAll actions s = (.ok results, s')) ↔ actions = [] ∨
      s.index ≤ b.room ∧ ∀ a ∈ actions, a.inst.op.isTerminator = false := by
  induction actions generalizing s b with
  | nil => exact iff_of_true ⟨[], s, rfl⟩ (.inl rfl)
  | cons a rest ih =>
    have first := a.step_result here
    let inst := a.placed (a.result s.function)
    have later := ih (s := (s.entering a).placing b inst) (block?_placing (s := s.entering a) here)
    simp only [reduceCtorEq, false_or, List.forall_mem_cons]
    constructor
    · rintro ⟨results, s', ok⟩
      obtain ⟨result, between, done, others⟩ := Edit.bind_eq_ok.mp ok
      obtain ⟨more, _, run, -⟩ := Edit.bind_eq_ok.mp others
      rw [first] at done
      split at done
      · next allowed =>
        cases done
        refine ⟨allowed.1, allowed.2, ?_⟩
        rcases later.mp ⟨_, _, run⟩ with rfl | ⟨-, plain⟩
        · exact List.forall_mem_nil _
        · exact plain
      · cases done
    · rintro ⟨room, plain, others⟩
      rw [if_pos ⟨room, plain⟩] at first
      have more_room : s.index + 1 ≤ (s.extended b [inst]).room := by
        rw [extended_room room (a.placed_plain plain _)]
        exact Nat.succ_le_succ room
      obtain ⟨results, s', run⟩ := later.mpr (.inr ⟨more_room, others⟩)
      exact ⟨_, s', by rw [runAll, Edit.bind_of_ok first, Edit.bind_of_ok run]; rfl⟩

/-- What a run that succeeds has done: its instructions stand in their order at the position, which
is behind them now, and the values they define come next in the table. -/
structure Landed (s : Insertion) (b : Block) (actions : List Action)
    (results : List (Option ValueId)) (s' : Insertion) : Prop where
  size : results.length = actions.length
  made : ∃ added, s' = {
      function := { s.function with
        blocks := s.function.blocks.set s.block.index
          (s.extended b (List.zipWith Action.placed actions results))
        values := s.function.values ++ added }
      block := s.block
      index := s.index + actions.length } ∧
    results.reduceOption = (List.range' s.function.values.length added.length).map .mk
  last : (s.extended b (List.zipWith Action.placed actions results)).terminator? = b.terminator?

theorem Landed.nil (here : s.function.block? s.block = some b) : Landed s b [] [] s := by
  have same : s.extended b [] = b := by simp [extended]
  refine ⟨rfl, ⟨[], ?_, rfl⟩, by rw [List.zipWith_nil_left, same]⟩
  obtain ⟨inside, whole⟩ := List.getElem?_eq_some_iff.mp here
  have blocks : s.function.blocks.set s.block.index b = s.function.blocks := by
    rw [← whole, List.set_getElem_self]
  rw [List.zipWith_nil_left, same, blocks]
  simp

theorem Landed.cons {a : Action} {rest : List Action} {results : List (Option ValueId)}
    (room : s.index ≤ b.room) (plain : a.inst.op.isTerminator = false)
    (landed : Landed ((s.entering a).placing b (a.placed (a.result s.function)))
      (s.extended b [a.placed (a.result s.function)]) rest results s') :
    Landed s b (a :: rest) (a.result s.function :: results) s' := by
  have inside := Nat.le_trans room b.room_le
  obtain ⟨size, ⟨added, rfl, defined⟩, last⟩ := landed
  have joined : ∀ more, ((s.entering a).placing b (a.placed (a.result s.function))).extended
      (s.extended b [a.placed (a.result s.function)]) more =
        s.extended b (a.placed (a.result s.function) :: more) := fun more => extended_placing inside
  rw [joined] at last
  refine ⟨by rw [List.length_cons, size, List.length_cons], ⟨a.entered s.function ++ added, ?_, ?_⟩, ?_⟩
  · rw [joined]
    simp [placing, entering, Function.setBlock, Nat.add_assoc, Nat.add_comm 1]
  · have table : ((s.entering a).placing b (a.placed (a.result s.function))).function.values.length =
        s.function.values.length + (a.entered s.function).length := List.length_append
    rw [table] at defined
    cases given : a.hint? with
    | none =>
      have none : a.entered s.function = [] := by simp [Action.entered, given]
      rw [none] at defined
      simpa [Action.result, none, given] using defined
    | some hint =>
      have one : (a.entered s.function).length = 1 := by simp [Action.entered, given]
      rw [one] at defined
      have result : a.result s.function = some ⟨s.function.values.length⟩ := by
        simp [Action.result, given]
      rw [result, List.reduceOption_cons_of_some, defined, List.length_append, one,
        Nat.add_comm 1, List.range'_succ, List.map_cons]
  · rw [List.zipWith_cons_cons, last, extended, List.append_assoc]
    exact Block.terminator?_inserted room (a.placed_plain plain _)

/-- A run of actions in a block succeeds if and only if it is empty or starts where there is room, and
puts in no terminator; what it puts in then stands at its start, in the order of the run. -/
theorem runAll_landed {actions : List Action} (here : s.function.block? s.block = some b) :
    ((∃ results s', runAll actions s = (.ok results, s')) ↔ actions = [] ∨
      s.index ≤ b.room ∧ ∀ a ∈ actions, a.inst.op.isTerminator = false) ∧
    ∀ results s', runAll actions s = (.ok results, s') → Landed s b actions results s' := by
  refine ⟨runAll_succeeds_iff here, ?_⟩
  induction actions generalizing s b with
  | nil =>
    rintro results s' ⟨⟩
    exact .nil here
  | cons a rest ih =>
    intro results s' ok
    obtain ⟨result, between, done, others⟩ := Edit.bind_eq_ok.mp ok
    obtain ⟨more, _, run, finished⟩ := Edit.bind_eq_ok.mp others
    obtain ⟨rfl, rfl⟩ := Edit.pure_eq_ok.mp finished
    rw [a.step_result here] at done
    split at done
    · next allowed =>
      cases done
      exact .cons allowed.1 allowed.2 (ih (s := (s.entering a).placing b _)
        (block?_placing (s := s.entering a) here) _ _ run)
    · cases done

def countOne : List Action :=
  [loadOne, .arith .add .i64 (.value ⟨0⟩) (.int 64 1) "new",
    .store .i64 (.value ⟨1⟩) (.constant .null), .call ⟨.void, .function ⟨0⟩, []⟩ ""]

theorem runAll_landed_counting : ending.block? ⟨0⟩ = some ⟨"", [{ op := .ret .void none }]⟩ ∧
    ∃ results s', runAll countOne ⟨ending, ⟨0⟩, 0⟩ = (.ok results, s') ∧
      results = [some ⟨0⟩, some ⟨1⟩, none, none] ∧
      Landed ⟨ending, ⟨0⟩, 0⟩ ⟨"", [{ op := .ret .void none }]⟩ countOne results s' := by
  have here : ending.block? ⟨0⟩ = some ⟨"", [{ op := .ret .void none }]⟩ := rfl
  obtain ⟨succeeds, landed⟩ := @runAll_landed ⟨ending, ⟨0⟩, 0⟩ _ countOne here
  obtain ⟨results, s', run⟩ := succeeds.mpr (.inr ⟨by decide, by decide⟩)
  refine ⟨here, results, s', run, ?_, landed results s' run⟩
  cases run
  rfl

end Insertion

end BlockTally
