import BlockTally.Code.Insertion
import BlockTally.Proofs.Code.FreshName

/-! Building in order: a step that succeeds puts its instruction between what stands before the
position and what stands behind it, so that a run of steps lands in its own order. Main statements:
`insert_between` and `define_between`. -/
namespace BlockTally

theorem Block.insert_eq_ok {b b' : Block} {index : Nat} {inst : Instruction} :
    b.insert index inst = .ok b' ↔
      (index ≤ b.terminatorIndex?.getD b.insts.length ∧ inst.op.isTerminator = false) ∧
        b' = { b with insts := b.insts.insertIdx index inst } := by
  simp only [Block.insert, Bool.not_eq_true', eq_comm (a := b')]
  split <;> simp_all

theorem Block.terminator?_eq_some {b : Block} {last : Instruction} :
    b.terminator? = some last ↔
      last.op.isTerminator = true ∧ ∃ front, b.insts = front ++ [last] := by
  simp only [terminator?, Option.filter_eq_some_iff, List.getLast?_eq_some_iff]
  exact ⟨fun ⟨ends, leaves⟩ => ⟨leaves, ends⟩, fun ⟨leaves, ends⟩ => ⟨ends, leaves⟩⟩

namespace Function

theorem block?_setBlock {f : Function} {id : BlockId} {b : Block} (b' : Block)
    (here : f.block? id = some b) : (f.setBlock id b').block? id = some b' := by
  have inside : id.index < f.blocks.length := (List.getElem?_eq_some_iff.mp here).1
  simp [block?, setBlock, inside]

private theorem addValue_eq (hint : String) (ty : Ty) (origin : Origin) (f : Function) :
    ∃ name, name ∉ f.values.map (·.name) ∧ f.addValue hint ty origin =
      (⟨f.values.length⟩, { f with values := f.values ++ [⟨name, ty, origin⟩] }) :=
  ⟨_, freshName_not_mem _ _ _, rfl⟩

end Function

namespace Insertion

private theorem insertIdx_between {α : Type} (front back : List α) (a : α) :
    (front ++ back).insertIdx front.length a = front ++ a :: back := by
  induction front with
  | nil => rfl
  | cons x front ih => simp [ih]

theorem insertIdx_within {α : Type} {l : List α} {index : Nat} (inside : index ≤ l.length) (a : α) :
    l.insertIdx index a = l.take index ++ a :: l.drop index := by
  have split := insertIdx_between (l.take index) (l.drop index) a
  rwa [List.take_append_drop, List.length_take_of_le inside] at split

/-- The position lies in the block `name`, behind `front` and before `back`. -/
structure Between (s : Insertion) (name : String) (front back : List Instruction) : Prop where
  block : s.function.block? s.block = some ⟨name, front ++ back⟩
  index : s.index = front.length

variable {s s' : Insertion} {name : String} {front back : List Instruction}

theorem insert_between {inst : Instruction} (place : Between s name front back)
    (ok : insert inst s = (.ok u, s')) :
    s' = ⟨s.function.setBlock s.block ⟨name, front ++ inst :: back⟩, s.block, s.index + 1⟩ ∧
      Between s' name (front ++ [inst]) back := by
  have built := Edit.attempt_eq_ok.mp ok
  simp only [place.block, Failure.present, bind, Except.bind] at built
  cases step : (Block.mk name (front ++ back)).insert s.index inst with
  | error e =>
    rw [step] at built
    cases built
  | ok b' =>
    rw [step, Failure.mapError_ok] at built
    simp only [pure, Except.pure, Except.ok.injEq, Prod.mk.injEq] at built
    obtain ⟨-, same⟩ := Block.insert_eq_ok.mp step
    rw [place.index, insertIdx_between] at same
    subst same
    rw [← built.2]
    refine ⟨rfl, ?_, ?_⟩
    · simpa using Function.block?_setBlock _ place.block
    · simp [place.index]

/-- A value is defined under a name of its own, right before the position. -/
theorem define_between {op : Operation} {hint : String} {id : ValueId}
    (place : Between s name front back) (ok : define op hint s = (.ok id, s')) :
    id = ⟨s.function.values.length⟩ ∧
    ∃ fresh, fresh ∉ s.function.values.map (·.name) ∧
      s' = ⟨{ s.function with
          blocks := s.function.blocks.set s.block.index
            ⟨name, front ++ { result := some id, op } :: back⟩
          values := s.function.values ++ [⟨fresh, op.resultTy, .instruction⟩] },
        s.block, s.index + 1⟩ ∧
      Between s' name (front ++ [{ result := some id, op }]) back := by
  obtain ⟨fresh, free, added⟩ := s.function.addValue_eq hint op.resultTy .instruction
  simp only [define, Edit.bind_eq_ok, Edit.change_eq_ok, Edit.pure_eq_ok, added] at ok
  obtain ⟨_, between, ⟨rfl, rfl⟩, _, after, inserted, rfl, rfl⟩ := ok
  have place' : Between ⟨{ s.function with
      values := s.function.values ++ [⟨fresh, op.resultTy, .instruction⟩] }, s.block, s.index⟩
      name front back := ⟨place.block, place.index⟩
  obtain ⟨done, place'⟩ := insert_between place' inserted
  exact ⟨rfl, fresh, free, done, place'⟩

/-- There is room up to the terminator, and in a block without one up to the end. -/
theorem insert_succeeds {b : Block} (inst : Instruction)
    (here : s.function.block? s.block = some b)
    (room : s.index ≤ b.terminatorIndex?.getD b.insts.length)
    (plain : inst.op.isTerminator = false) : ∃ s', insert inst s = (.ok (), s') := by
  have inserted := Block.insert_eq_ok.mpr ⟨⟨room, plain⟩, rfl⟩
  simp only [insert, Edit.attempt, here, Failure.present, bind, Except.bind, inserted,
    Failure.mapError_ok]
  exact ⟨_, rfl⟩

theorem Between.room (place : Between s name front back) (behind : back ≠ []) :
    s.index ≤ (Block.mk name (front ++ back)).terminatorIndex?.getD (front ++ back).length := by
  have some := List.length_pos_iff.mpr behind
  rw [place.index, Block.terminatorIndex?]
  cases (Block.mk name (front ++ back)).terminator? with
  | none => simp
  | some last =>
    simp
    omega

theorem define_succeeds (op : Operation) (hint : String) (place : Between s name front back)
    (behind : back ≠ []) (plain : op.isTerminator = false) :
    ∃ id s', define op hint s = (.ok id, s') := by
  obtain ⟨fresh, -, added⟩ := s.function.addValue_eq hint op.resultTy .instruction
  have place' : Between ⟨{ s.function with
      values := s.function.values ++ [⟨fresh, op.resultTy, .instruction⟩] }, s.block, s.index⟩
      name front back := ⟨place.block, place.index⟩
  obtain ⟨s', inserted⟩ := insert_succeeds { result := some ⟨s.function.values.length⟩, op }
    place'.block (place'.room behind) plain
  refine ⟨⟨s.function.values.length⟩, s', ?_⟩
  simp only [define, Edit.bind_eq_ok, Edit.change_eq_ok, Edit.pure_eq_ok, added]
  exact ⟨_, _, ⟨rfl, rfl⟩, _, _, inserted, rfl, rfl⟩

theorem edit_eq_ok {start : Function → Except (Failure EditError) Insertion} {step : Step α}
    {f f' : Function} {a : α} : edit start step f = (.ok a, f') ↔
      ∃ s s', start f = .ok s ∧ step s = (.ok a, s') ∧ f' = s'.function := by
  unfold edit
  cases start f with
  | error e => simp
  | ok s =>
    simp only [Prod.mk.injEq, Except.ok.injEq]
    constructor
    · rintro ⟨done, rfl⟩
      exact ⟨s, _, rfl, Prod.ext done rfl, rfl⟩
    · rintro ⟨_, _, rfl, run, rfl⟩
      rw [run]
      exact ⟨rfl, rfl⟩

end Insertion

end BlockTally
