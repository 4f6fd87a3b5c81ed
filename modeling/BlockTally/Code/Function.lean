import BlockTally.Code.Block
import BlockTally.Code.FreshName
import BlockTally.Code.Linkage

/-! Functions: a signature, a table of blocks and a table of the values that live in them. -/
namespace BlockTally

/-- Attributes as the listing writes them: before the return type, after each parameter type and
after the parameter list. -/
structure Attributes where
  lead : String := ""
  params : List String := []
  trail : String := ""
  deriving DecidableEq

def Attributes.param (attrs : Attributes) (position : Nat) : String :=
  attrs.params[position]?.getD ""

structure Function where
  name : String
  ret : Ty
  linkage : Linkage := .external
  params : List ValueId := []
  variadic : Bool := false
  blocks : List Block := []
  values : List Value := []
  attrs : Attributes := {}
  deriving DecidableEq

namespace Function

def value? (f : Function) (id : ValueId) : Option Value := f.values[id.index]?

def block? (f : Function) (id : BlockId) : Option Block := f.blocks[id.index]?

def valueNamed? (f : Function) (name : String) : Option ValueId :=
  (f.values.findIdx? (·.name == name)).map .mk

def blockNamed? (f : Function) (name : String) : Option BlockId :=
  (f.blocks.findIdx? (·.name == name)).map .mk

def entry? (f : Function) : Option BlockId := if f.blocks.isEmpty then none else some ⟨0⟩

def isDeclaration (f : Function) : Bool := f.blocks.isEmpty

def instructionCount (f : Function) : Nat := (f.blocks.flatMap (·.insts)).length

def signature (f : Function) : Signature where
  ret := f.ret
  params := f.params.filterMap fun id => (f.value? id).map (·.ty)
  variadic := f.variadic

/-- A new value whose name is the hint, changed where another value bears it. -/
def addValue (hint : String) (ty : Ty) (origin : Origin) (f : Function) : ValueId × Function :=
  let name := freshName (f.values.map (·.name)) f.values.length hint
  (⟨f.values.length⟩, { f with values := f.values ++ [⟨name, ty, origin⟩] })

def addNamedValue (name : String) (ty : Ty) (origin : Origin) (f : Function) :
    Except EditError (ValueId × Function) :=
  if (f.valueNamed? name).isSome then .error (.duplicateValue f.name name)
  else .ok (⟨f.values.length⟩, { f with values := f.values ++ [⟨name, ty, origin⟩] })

def addParam (ty : Ty) (name : String) (f : Function) : ValueId × Function :=
  let (id, f) := f.addValue name ty (.parameter f.params.length)
  (id, { f with params := f.params ++ [id] })

def retype (id : ValueId) (ty : Ty) (f : Function) : Option Function :=
  (f.value? id).map fun v => { f with values := f.values.set id.index { v with ty } }

def addBlock (name : String) (f : Function) : BlockId × Function :=
  (⟨f.blocks.length⟩, { f with blocks := f.blocks ++ [{ name }] })

def setBlock (id : BlockId) (b : Block) (f : Function) : Function :=
  { f with blocks := f.blocks.set id.index b }

def push (id : BlockId) (inst : Instruction) (f : Function) : Option Function :=
  (f.block? id).map fun b => f.setBlock id (b.push inst)

def declare (name : String) (sig : Signature) : Function :=
  let f : Function := { name, ret := sig.ret, variadic := sig.variadic }
  sig.params.foldl (fun f ty => (f.addParam ty "").2) f

end Function

end BlockTally
