import BlockTally.Code.Function
import BlockTally.Failure

/-! Building code inside a block. Each step puts one instruction before the position and moves the
position behind it, so that a run of steps lands in its own order. -/
namespace BlockTally

structure Insertion where
  function : Function
  block : BlockId
  index : Nat

namespace Insertion

def atStart (f : Function) (block : BlockId) : Insertion := ⟨f, block, 0⟩

def beforeTerminator (f : Function) (block : BlockId) : Except (Failure EditError) Insertion := do
  let b ← Failure.present (f.block? block)
  match b.terminatorIndex? with
  | some index => .ok ⟨f, block, index⟩
  | none => .error (.refused (.missingTerminator f.name b.name))

/-- A step of building, which may add values to the function before the insertion fails. -/
abbrev Step := Edit Insertion EditError

def insert (inst : Instruction) : Step Unit :=
  .attempt fun s => do
    let b ← Failure.present (s.function.block? s.block)
    let b ← (b.insert s.index inst).mapError .refused
    return ((), { s with function := s.function.setBlock s.block b, index := s.index + 1 })

def define (op : Operation) (hint : String) : Step ValueId := do
  let id ← .change fun s =>
    let (id, f) := s.function.addValue hint op.resultTy .instruction
    (id, { s with function := f })
  insert { result := some id, op }
  return id

def load (ty : Ty) (ptr : Operand) (hint : String) : Step ValueId := define (.load ty ptr none) hint

def store (ty : Ty) (value ptr : Operand) : Step Unit := insert { op := .store ty value ptr none }

def arith (op : Arith) (ty : Ty) (lhs rhs : Operand) (hint : String) : Step ValueId :=
  define (.arith op ty lhs rhs false false) hint

def call (site : CallSite) (hint : String) : Step (Option ValueId) :=
  if site.ret.isVoid then do
    insert { op := .call site }
    return none
  else some <$> define (.call site) hint

def edit (start : Function → Except (Failure EditError) Insertion) (step : Step α) :
    Edit Function EditError α := fun f =>
  match start f with
  | .error e => (.error e, f)
  | .ok s => let (result, s) := step s; (result, s.function)

end Insertion

end BlockTally
