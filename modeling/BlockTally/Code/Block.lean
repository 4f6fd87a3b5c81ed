import BlockTally.Code.EditError
import BlockTally.Code.Instruction

/-! Basic blocks. -/
namespace BlockTally

structure Block where
  name : String
  insts : List Instruction := []
  deriving DecidableEq

namespace Block

def terminator? (b : Block) : Option Instruction := b.insts.getLast?.filter (·.op.isTerminator)

def terminatorIndex? (b : Block) : Option Nat := b.terminator?.map fun _ => b.insts.length - 1

def push (inst : Instruction) (b : Block) : Block := { b with insts := b.insts ++ [inst] }

/-- Puts an instruction before position `index`. A terminator has to stay last, so none is put in,
and nothing goes behind the one the block has. -/
def insert (b : Block) (index : Nat) (inst : Instruction) : Except EditError Block :=
  if index ≤ b.terminatorIndex?.getD b.insts.length ∧ !inst.op.isTerminator then
    .ok { b with insts := b.insts.insertIdx index inst }
  else .error (.invalidInsertion b.name index)

end Block

end BlockTally
