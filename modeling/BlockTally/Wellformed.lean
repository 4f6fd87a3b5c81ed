import BlockTally.Code.Module

/-! Defects that make a module unusable and warnings that do not, each in the order of the code. -/
namespace BlockTally

inductive Defect where
  | emptyBlock (function block : String)
  | missingTerminator (function block : String)
  | terminatorNotLast (function block : String)
  | unknownBlock (function block : String)
  | undefinedValue (function block : String)
  | useBeforeDefinition (function value : String)
  | misplacedPhi (function block : String)
  | callArity (function callee : String) (expected found : Nat)
  | returnMismatch (function : String) (expected : Ty)
  | nonPointerAccess (function opcode : String)
  | unknownSymbol (function : String)
  deriving DecidableEq

def Defect.message : Defect → String
  | .emptyBlock function block => "block `%" ++ block ++ "` in `@" ++ function ++ "` is empty"
  | .missingTerminator function block =>
    "block `%" ++ block ++ "` in `@" ++ function ++ "` does not end in a terminator"
  | .terminatorNotLast function block =>
    "terminator before the end of block `%" ++ block ++ "` in `@" ++ function ++ "`"
  | .unknownBlock function block =>
    "block `%" ++ block ++ "` in `@" ++ function ++ "` refers to an unknown block"
  | .undefinedValue function block =>
    "block `%" ++ block ++ "` in `@" ++ function ++ "` uses an undefined value"
  | .useBeforeDefinition function value =>
    "`%" ++ value ++ "` is used before its definition in `@" ++ function ++ "`"
  | .misplacedPhi function block =>
    "phi after a non-phi instruction in block `%" ++ block ++ "` of `@" ++ function ++ "`"
  | .callArity function callee expected found =>
    "call to `@" ++ callee ++ "` in `@" ++ function ++ "` passes " ++ toString found ++
      " arguments, expected " ++ toString expected
  | .returnMismatch function expected =>
    "`ret` in `@" ++ function ++ "` does not match return type `" ++ expected.text ++ "`"
  | .nonPointerAccess function opcode =>
    opcode ++ " through a non-pointer operand in `@" ++ function ++ "`"
  | .unknownSymbol function => "`@" ++ function ++ "` refers to an unknown global or function"

inductive Warning where
  | brokenDebugInfo (function : String) (node : UInt32)
  deriving DecidableEq

def Warning.message : Warning → String
  | .brokenDebugInfo function node =>
    "`@" ++ function ++ "` attaches undefined debug location `!" ++ toString node.toNat ++ "`"

structure Site where
  block : Nat
  index : Nat
  deriving DecidableEq

def Function.definitions (f : Function) : List (ValueId × Site) :=
  f.blocks.zipIdx.flatMap fun (b, block) =>
    b.insts.zipIdx.filterMap fun (inst, index) => inst.result.map (·, ⟨block, index⟩)

/-- The definition of a value; the last one counts. -/
def definition? (defs : List (ValueId × Site)) (id : ValueId) : Option Site :=
  (defs.reverse.find? (·.1 == id)).map (·.2)

def Operation.targets (op : Operation) : List BlockId :=
  op.successors ++ match op with
    | .phi _ incoming => incoming.map (·.2)
    | _ => []

section
variable (m : Module) (f : Function) (defs : List (ValueId × Site))

/-- A definition in the block of its user stands before it, unless the user is a phi, whose
operands come in over its edges. -/
def valueDefects (b : Block) (site : Site) (isPhi : Bool) (id : ValueId) : List Defect :=
  match f.value? id with
  | none => [.undefinedValue f.name b.name]
  | some v =>
    if v.origin ≠ .instruction then []
    else match definition? defs id with
      | none => [.undefinedValue f.name b.name]
      | some d =>
        if !isPhi && d.block = site.block && site.index ≤ d.index then
          [.useBeforeDefinition f.name v.name]
        else []

def operandDefects (b : Block) (site : Site) (isPhi : Bool) : Operand → List Defect
  | .value id => valueDefects f defs b site isPhi id
  | .global id => if (m.global? id).isSome then [] else [.unknownSymbol f.name]
  | .function id => if (m.function? id).isSome then [] else [.unknownSymbol f.name]
  | .constant _ => []

def isPointer : Operand → Bool
  | .value id => (f.value? id).any (·.ty.isPtr)
  | .global _ | .function _ => true
  | .constant (.int ..) => false
  | .constant _ => true

def callDefects (site : CallSite) : List Defect :=
  match site.callee.function?.bind m.function? with
  | none => []
  | some callee =>
    let expected := callee.params.length
    let found := site.args.length
    if found = expected || callee.variadic && expected < found then []
    else [.callArity f.name callee.name expected found]

def operationDefects : Operation → List Defect
  | .call site | .invoke site .. => callDefects m f site
  | .ret ty value =>
    if ty = f.ret && value.isSome != f.ret.isVoid then [] else [.returnMismatch f.name f.ret]
  | .load _ ptr _ => if isPointer f ptr then [] else [.nonPointerAccess f.name "load"]
  | .store _ _ ptr _ => if isPointer f ptr then [] else [.nonPointerAccess f.name "store"]
  | _ => []

def instructionDefects (b : Block) (site : Site) (inst : Instruction) : List Defect :=
  (if inst.op.isPhi && (b.insts.take site.index).any (!·.op.isPhi) then
    [.misplacedPhi f.name b.name] else []) ++
  (if inst.op.targets.all fun id => (f.block? id).isSome then [] else
    [.unknownBlock f.name b.name]) ++
  inst.op.operands.flatMap (operandDefects m f defs b site inst.op.isPhi) ++
  operationDefects m f inst.op

/-- Nothing more is said of an empty block. -/
def blockDefects (b : Block) (block : Nat) : List Defect :=
  if b.insts.isEmpty then [.emptyBlock f.name b.name]
  else
    (if b.terminator?.isSome then [] else [.missingTerminator f.name b.name]) ++
    (if b.insts.dropLast.any (·.op.isTerminator) then [.terminatorNotLast f.name b.name]
      else []) ++
    b.insts.zipIdx.flatMap fun (inst, i) => instructionDefects m f defs b ⟨block, i⟩ inst

def functionDefects : List Defect :=
  let defs := f.definitions
  f.blocks.zipIdx.flatMap fun (b, block) => blockDefects m f defs b block

/-- Each unknown node is reported once for a function, in the order of first attachment. -/
def functionWarnings : List Warning :=
  let nodes := (f.blocks.flatMap (·.insts)).filterMap (·.dbg)
  (nodes.eraseDups.filter (!m.hasMetadata ·)).map (.brokenDebugInfo f.name)

end

namespace Module

def defects (m : Module) : List Defect := m.functions.flatMap (functionDefects m)

def warnings (m : Module) : List Warning := m.functions.flatMap (functionWarnings m)

def isValid (m : Module) : Bool := m.defects.isEmpty

end Module

end BlockTally
