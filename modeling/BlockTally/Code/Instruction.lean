import BlockTally.Code.Operand

/-! Instructions: an operation, the value it defines if it defines one, and its debug location. -/
namespace BlockTally

inductive Arith where
  | add | sub | mul | and | or | xor
  deriving DecidableEq

namespace Arith

def all : List Arith := [.add, .sub, .mul, .and, .or, .xor]

def mnemonic : Arith → String
  | .add => "add"
  | .sub => "sub"
  | .mul => "mul"
  | .and => "and"
  | .or => "or"
  | .xor => "xor"

def ofMnemonic? (word : String) : Option Arith := all.find? (·.mnemonic == word)

end Arith

inductive Comparison where
  | eq | ne | ugt | uge | ult | ule | sgt | sge | slt | sle
  deriving DecidableEq

namespace Comparison

def all : List Comparison := [.eq, .ne, .ugt, .uge, .ult, .ule, .sgt, .sge, .slt, .sle]

def mnemonic : Comparison → String
  | .eq => "eq"
  | .ne => "ne"
  | .ugt => "ugt"
  | .uge => "uge"
  | .ult => "ult"
  | .ule => "ule"
  | .sgt => "sgt"
  | .sge => "sge"
  | .slt => "slt"
  | .sle => "sle"

def ofMnemonic? (word : String) : Option Comparison := all.find? (·.mnemonic == word)

@[simp] theorem ofMnemonic?_mnemonic (op : Comparison) : ofMnemonic? op.mnemonic = some op := by
  cases op <;> decide

end Comparison

inductive Conversion where
  | trunc | zext | sext | ptrtoint | inttoptr | bitcast
  deriving DecidableEq

namespace Conversion

def all : List Conversion := [.trunc, .zext, .sext, .ptrtoint, .inttoptr, .bitcast]

def mnemonic : Conversion → String
  | .trunc => "trunc"
  | .zext => "zext"
  | .sext => "sext"
  | .ptrtoint => "ptrtoint"
  | .inttoptr => "inttoptr"
  | .bitcast => "bitcast"

def ofMnemonic? (word : String) : Option Conversion := all.find? (·.mnemonic == word)

end Conversion

structure CallSite where
  ret : Ty
  callee : Operand
  args : List (Ty × Operand)
  deriving DecidableEq

inductive Operation where
  | alloca (ty : Ty) (align : Option UInt32)
  | load (ty : Ty) (ptr : Operand) (align : Option UInt32)
  | store (ty : Ty) (value ptr : Operand) (align : Option UInt32)
  | arith (op : Arith) (ty : Ty) (lhs rhs : Operand) (nuw nsw : Bool)
  | icmp (pred : Comparison) (ty : Ty) (lhs rhs : Operand)
  | convert (op : Conversion) (source : Ty) (value : Operand) (target : Ty)
  | phi (ty : Ty) (incoming : List (Operand × BlockId))
  | call (site : CallSite)
  | invoke (site : CallSite) (normal unwind : BlockId)
  | br (dest : BlockId)
  | condBr (cond : Operand) (thenDest elseDest : BlockId)
  | ret (ty : Ty) (value : Option Operand)
  | unreachable
  deriving DecidableEq

namespace Operation

def opcode : Operation → String
  | .alloca .. => "alloca"
  | .load .. => "load"
  | .store .. => "store"
  | .arith op .. => op.mnemonic
  | .icmp .. => "icmp"
  | .convert op .. => op.mnemonic
  | .phi .. => "phi"
  | .call .. => "call"
  | .invoke .. => "invoke"
  | .br .. | .condBr .. => "br"
  | .ret .. => "ret"
  | .unreachable => "unreachable"

def resultTy : Operation → Ty
  | .alloca .. => .ptr
  | .load ty .. | .arith _ ty .. | .phi ty _ => ty
  | .icmp .. => .i1
  | .convert _ _ _ target => target
  | .call site | .invoke site .. => site.ret
  | .store .. | .br .. | .condBr .. | .ret .. | .unreachable => .void

def operands : Operation → List Operand
  | .alloca .. | .br .. | .unreachable => []
  | .load _ ptr _ => [ptr]
  | .store _ value ptr _ => [value, ptr]
  | .arith _ _ lhs rhs .. | .icmp _ _ lhs rhs => [lhs, rhs]
  | .convert _ _ value _ => [value]
  | .phi _ incoming => incoming.map (·.1)
  | .call site | .invoke site .. => site.callee :: site.args.map (·.2)
  | .condBr cond .. => [cond]
  | .ret _ value => value.toList

def callSite? : Operation → Option CallSite
  | .call site | .invoke site .. => some site
  | _ => none

def isTerminator : Operation → Bool
  | .br .. | .condBr .. | .ret .. | .unreachable | .invoke .. => true
  | _ => false

def isBranch : Operation → Bool
  | .br .. | .condBr .. => true
  | _ => false

def isExit : Operation → Bool
  | .ret .. | .unreachable => true
  | _ => false

def isPhi : Operation → Bool
  | .phi .. => true
  | _ => false

def successors : Operation → List BlockId
  | .br dest => [dest]
  | .condBr _ thenDest elseDest => [thenDest, elseDest]
  | .invoke _ normal unwind => [normal, unwind]
  | _ => []

/-- Alignment is a property of memory operations only. -/
def aligned (align : Option UInt32) : Operation → Operation
  | .alloca ty _ => .alloca ty align
  | .load ty ptr _ => .load ty ptr align
  | .store ty value ptr _ => .store ty value ptr align
  | op => op

end Operation

structure Instruction where
  result : Option ValueId := none
  op : Operation
  dbg : Option UInt32 := none
  deriving DecidableEq

end BlockTally
