import BlockTally.Text.Decimal

/-! Types of values and signatures of functions. -/
namespace BlockTally

/-- A pointer says nothing of what it points to. -/
inductive Ty where
  | void
  | int (width : UInt32)
  | ptr
  deriving DecidableEq

namespace Ty

abbrev i1 : Ty := .int 1
abbrev i64 : Ty := .int 64

def isVoid (ty : Ty) : Bool := ty = .void
def isPtr (ty : Ty) : Bool := ty = .ptr

def width? : Ty → Option UInt32
  | .int width => some width
  | _ => none

def text : Ty → String
  | .void => "void"
  | .int width => "i" ++ toString width.toNat
  | .ptr => "ptr"

def widthOf? (cs : List Char) : Option UInt32 :=
  let digits := match cs with
    | '+' :: ds => ds
    | ds => ds
  (Text.word32? digits).filter fun width => 1 ≤ width && width ≤ 128

def ofKeyword? (word : String) : Option Ty :=
  if word = "void" then some .void
  else if word = "ptr" then some .ptr
  else match word.toList with
    | 'i' :: cs => (widthOf? cs).map .int
    | _ => none

end Ty

structure Signature where
  ret : Ty
  params : List Ty := []
  variadic : Bool := false
  deriving DecidableEq

namespace Signature

def text (sig : Signature) : String :=
  let params := sig.params.map Ty.text ++ if sig.variadic then ["..."] else []
  sig.ret.text ++ " (" ++ ", ".intercalate params ++ ")"

def nullary : Signature := ⟨.void, [], false⟩

end Signature

end BlockTally
