import BlockTally.Code.Ty

/-! What an instruction works on. Everything but a constant is named by its place in a table: of
the module for functions and globals, of the enclosing function for blocks and values. -/
namespace BlockTally

structure FuncId where
  index : Nat
  deriving DecidableEq

structure GlobalId where
  index : Nat
  deriving DecidableEq

structure BlockId where
  index : Nat
  deriving DecidableEq

structure ValueId where
  index : Nat
  deriving DecidableEq

inductive Origin where
  | parameter (position : Nat)
  | instruction
  deriving DecidableEq

structure Value where
  name : String
  ty : Ty
  origin : Origin
  deriving DecidableEq

inductive Constant where
  | int (width : UInt32) (value : Int64)
  | null
  | undef
  | poison
  deriving DecidableEq

namespace Constant

def zero? : Ty → Option Constant
  | .int width => some (.int width 0)
  | .ptr => some .null
  | .void => none

def text : Constant → String
  | .int 1 value => if value = 0 then "false" else "true"
  | .int _ value => toString value.toInt
  | .null => "null"
  | .undef => "undef"
  | .poison => "poison"

end Constant

inductive Operand where
  | value (id : ValueId)
  | global (id : GlobalId)
  | function (id : FuncId)
  | constant (c : Constant)
  deriving DecidableEq

namespace Operand

def int (width : UInt32) (value : Int64) : Operand := .constant (.int width value)

def value? : Operand → Option ValueId
  | .value id => some id
  | _ => none

def function? : Operand → Option FuncId
  | .function id => some id
  | _ => none

end Operand

end BlockTally
