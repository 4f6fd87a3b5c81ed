import BlockTally.Proofs.Code.Insertion
import BlockTally.Tally.Update
import Mathlib.Data.List.Forall2

/-! What counting puts into the blocks of a function: an increment of the counter right before each
terminator, through two values of its own, and nothing else. Main statements: `countBlock_result`
for one block, `countFunction_result` for all of them. -/
namespace BlockTally.Tally

/-- Adds one to the counter by way of the values `first` and `first + 1`. -/
def increments (counter : GlobalId) (first : Nat) : List Instruction :=
  [{ result := some ⟨first⟩, op := .load .i64 (.global counter) none },
   { result := some ⟨first + 1⟩
     op := .arith .add .i64 (.value ⟨first⟩) (.int 64 1) false false },
   { op := .store .i64 (.value ⟨first + 1⟩) (.global counter) none }]

def hookCall (hook : FuncId) : Instruction := { op := .call ⟨.void, .function hook, []⟩ }

/-- A counted block: `before` comes first, and the increment right before the old last. -/
def countedBlock (before : List Instruction) (counter : GlobalId) (first : Nat) (b : Block) :
    Block :=
  { b with insts := before ++ b.insts.dropLast ++ increments counter first ++
      b.insts.getLast?.toList }

/-- Values for a table that has `old` already: each of 64 bits, the result of an instruction, and
under a name that neither an old value nor another new one bears. -/
structure NewValues (old added : List Value) : Prop where
  typed : ∀ v ∈ added, v.ty = .i64 ∧ v.origin = .instruction
  unused : ∀ v ∈ added, v.name ∉ old.map (·.name)
  distinct : (added.map (·.name)).Nodup

theorem NewValues.nil (old : List Value) : NewValues old [] :=
  ⟨by simp, by simp, by simp⟩

theorem NewValues.single {old : List Value} {name : String} (free : name ∉ old.map (·.name)) :
    NewValues old [⟨name, .i64, .instruction⟩] := by
  refine ⟨?_, ?_, by simp⟩ <;> intro v mem <;> rw [List.mem_singleton.mp mem]
  · exact ⟨rfl, rfl⟩
  · exact free

theorem NewValues.trans {old added more : List Value} (first : NewValues old added)
    (rest : NewValues (old ++ added) more) : NewValues old (added ++ more) := by
  have unused : ∀ v ∈ more, v.name ∉ old.map (·.name) ∧ v.name ∉ added.map (·.name) := by
    intro v mem
    simpa only [List.map_append, List.mem_append, not_or] using rest.unused v mem
  refine ⟨?_, ?_, ?_⟩
  · intro v mem
    exact (List.mem_append.mp mem).elim (first.typed v) (rest.typed v)
  · intro v mem
    exact (List.mem_append.mp mem).elim (first.unused v) fun mem => (unused v mem).1
  · rw [List.map_append, List.nodup_append]
    refine ⟨first.distinct, rest.distinct, ?_⟩
    rintro _ mem _ mem' rfl
    obtain ⟨v, inside, rfl⟩ := List.mem_map.mp mem'
    exact (unused v inside).2 mem

theorem countBlock_result {counter : GlobalId} {block : BlockId} {f f' : Function}
    (ok : countBlock ⟨counter, .i64⟩ block f = (.ok u, f')) :
    ∃ b, f.block? block = some b ∧ b.terminator?.isSome ∧ ∃ added,
      NewValues f.values added ∧ added.length = 2 ∧
      f' = { f with
        blocks := f.blocks.set block.index (countedBlock [] counter f.values.length b)
        values := f.values ++ added } := by
  obtain ⟨start, s, began, run, rfl⟩ := Insertion.edit_eq_ok.mp ok
  simp only [Insertion.beforeTerminator, bind, Except.bind] at began
  cases here : f.block? block with
  | none => simp [here, Failure.present] at began
  | some b =>
    cases ends : b.terminator? with
    | none => simp [here, Failure.present, Block.terminatorIndex?, ends] at began
    | some last =>
      obtain ⟨-, front, whole⟩ := Block.terminator?_eq_some.mp ends
      simp only [here, Failure.present, Block.terminatorIndex?, ends, Option.map_some,
        Except.ok.injEq] at began
      obtain ⟨name, insts⟩ := b
      simp only at whole
      subst whole began
      have place : Insertion.Between ⟨f, block, (front ++ [last]).length - 1⟩ name front [last] :=
        ⟨here, by simp⟩
      simp only [increment, Insertion.load, Insertion.arith, Insertion.store,
        Edit.bind_eq_ok] at run
      obtain ⟨old, s₁, loaded, new, s₂, summed, stored⟩ := run
      obtain ⟨oldId, oldName, oldFree, rfl, place₁⟩ := Insertion.define_between place loaded
      obtain ⟨newId, newName, newFree, rfl, place₂⟩ := Insertion.define_between place₁ summed
      obtain ⟨rfl, -⟩ := Insertion.insert_between place₂ stored
      have fresh := (NewValues.single oldFree).trans (.single newFree)
      refine ⟨_, rfl, by simp [ends], _, fresh, rfl, ?_⟩
      subst oldId newId
      simp [Function.setBlock, countedBlock, increments, Operation.resultTy, Ty.width?]

/-- The first `count` blocks of `f` are counted in `f'`. -/
structure CountedUpTo (counter : GlobalId) (count : Nat) (f f' : Function) : Prop where
  ended : ∀ k b, k < count → f.blocks[k]? = some b → b.terminator?.isSome
  made : ∃ added, NewValues f.values added ∧ added.length = 2 * count ∧ f' = { f with
    blocks := f.blocks.mapIdx fun k b =>
      if k < count then countedBlock [] counter (f.values.length + 2 * k) b else b
    values := f.values ++ added }

theorem CountedUpTo.zero (counter : GlobalId) (f : Function) : CountedUpTo counter 0 f f :=
  ⟨by simp, [], .nil _, rfl, by simp [List.mapIdx_eq_zipIdx_map]⟩

theorem CountedUpTo.succ {counter : GlobalId} {count : Nat} {f f' f'' : Function}
    (so_far : CountedUpTo counter count f f')
    (ok : countBlock ⟨counter, .i64⟩ ⟨count⟩ f' = (.ok u, f'')) :
    CountedUpTo counter (count + 1) f f'' := by
  obtain ⟨ended, added, fresh, size, rfl⟩ := so_far
  obtain ⟨b, here, ends, more, fresh', two, rfl⟩ := countBlock_result ok
  clear ok
  have old : f.blocks[count]? = some b := by
    simpa [Function.block?, List.getElem?_mapIdx] using here
  refine ⟨?_, added ++ more, fresh.trans fresh', by simp [size, two]; omega, ?_⟩
  · intro k b' below there
    by_cases last : k = count
    · subst last
      rw [old, Option.some.injEq] at there
      exact there ▸ ends
    · exact ended k b' (by omega) there
  · simp only [List.append_assoc, Function.mk.injEq, true_and, and_true]
    apply List.ext_getElem?
    intro k
    have inside : count < f.blocks.length := (List.getElem?_eq_some_iff.mp old).1
    by_cases last : count = k
    · subst last
      rw [List.getElem?_set_self (by simpa using inside)]
      simp [List.getElem?_mapIdx, old, size]
    · have same : k < count + 1 ↔ k < count := by omega
      rw [List.getElem?_set_ne last]
      simp only [List.getElem?_mapIdx, same]

private theorem countBlocks_result {counter : GlobalId} {f : Function} :
    ∀ (more : Nat) {count : Nat}
    {f' f'' : Function}, CountedUpTo counter count f f' →
    countBlocks ⟨counter, .i64⟩ ((List.range' count more).map .mk) f' = (.ok u, f'') →
    CountedUpTo counter (count + more) f f''
  | 0, count, f', f'', so_far, ok => by
    obtain ⟨-, rfl⟩ := Edit.pure_eq_ok.mp ok
    exact so_far
  | more + 1, count, f', f'', so_far, ok => by
    rw [List.range'_succ, List.map_cons, countBlocks, Edit.bind_eq_ok] at ok
    obtain ⟨_, between, first, rest⟩ := ok
    have done := countBlocks_result more (so_far.succ first) rest
    rwa [Nat.add_assoc, Nat.add_comm 1 more] at done

theorem countFunction_result {counter : GlobalId} {f f' : Function}
    (ok : countFunction ⟨counter, .i64⟩ f = (.ok changed, f')) :
    CountedUpTo counter f.blocks.length f f' := by
  simp only [countFunction, Edit.bind_eq_ok, Edit.read_eq_ok, Edit.pure_eq_ok] at ok
  obtain ⟨_, _, ⟨rfl, rfl⟩, _, _, run, -, rfl⟩ := ok
  rw [List.range_eq_range'] at run
  simpa using countBlocks_result _ (.zero counter _) run

theorem countFunctions_result {counter : GlobalId} : ∀ {fs fs' : List Function},
    countFunctions ⟨counter, .i64⟩ fs = (.ok u, fs') →
    List.Forall₂ (fun f f' => CountedUpTo counter f.blocks.length f f') fs fs'
  | [], _, ok => by
    cases ok
    exact .nil
  | f :: fs, fs', ok => by
    unfold countFunctions at ok
    rcases first : countFunction ⟨counter, .i64⟩ f with ⟨_ | changed, f'⟩
    · simp [first] at ok
    · rcases rest : countFunctions ⟨counter, .i64⟩ fs with ⟨result, more⟩
      simp only [first, rest, Prod.mk.injEq] at ok
      obtain ⟨rfl, rfl⟩ := ok
      exact .cons (countFunction_result first) (countFunctions_result rest)

end BlockTally.Tally
