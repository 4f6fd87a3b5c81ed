import BlockTally.Code.Module
import BlockTally.Text.Name

/-! The text of a module. There is none where an id names no entry of its table. -/
namespace BlockTally.Listing
open Text

def globalNameText (name : String) : String := "@" ++ spelled name

def localNameText (name : String) : String := "%" ++ spelled name

def alignText (align : Option UInt32) : String :=
  match align with
  | some n => ", align " ++ toString n.toNat
  | none => ""

def valueText (f : Function) (id : ValueId) : Option String := do
  return localNameText (← f.value? id).name

def blockText (f : Function) (id : BlockId) : Option String := do
  return localNameText (← f.block? id).name

def labelText (f : Function) (id : BlockId) : Option String := do
  return "label " ++ (← blockText f id)

def operandText (m : Module) (f : Function) : Operand → Option String
  | .value id => valueText f id
  | .global id => return globalNameText (← m.global? id).name
  | .function id => return globalNameText (← m.function? id).name
  | .constant c => c.text

def pairText (m : Module) (f : Function) (ty : Ty) (lhs rhs : Operand) : Option String := do
  return ty.text ++ " " ++ (← operandText m f lhs) ++ ", " ++ (← operandText m f rhs)

/-- The type before a callee: the whole signature where the callee is variadic. -/
def calleeTyText (m : Module) (site : CallSite) : Option String :=
  match site.callee with
  | .function id => do
    let callee ← m.function? id
    return if callee.variadic then callee.signature.text else site.ret.text
  | _ => site.ret.text

def callSiteText (m : Module) (f : Function) (site : CallSite) : Option String := do
  let args ← site.args.mapM fun (ty, arg) => return ty.text ++ " " ++ (← operandText m f arg)
  return (← calleeTyText m site) ++ " " ++ (← operandText m f site.callee) ++
    "(" ++ ", ".intercalate args ++ ")"

def edgeText (m : Module) (f : Function) (edge : Operand × BlockId) : Option String := do
  return "[ " ++ (← operandText m f edge.1) ++ ", " ++ (← blockText f edge.2) ++ " ]"

def operationText (m : Module) (f : Function) : Operation → Option String
  | .alloca ty align => "alloca " ++ ty.text ++ alignText align
  | .load ty ptr align =>
    return "load " ++ ty.text ++ ", ptr " ++ (← operandText m f ptr) ++ alignText align
  | .store ty value ptr align =>
    return "store " ++ ty.text ++ " " ++ (← operandText m f value) ++ ", ptr " ++
      (← operandText m f ptr) ++ alignText align
  | .arith op ty lhs rhs nuw nsw =>
    return op.mnemonic ++ (if nuw then " nuw" else "") ++ (if nsw then " nsw" else "") ++ " " ++
      (← pairText m f ty lhs rhs)
  | .icmp pred ty lhs rhs => return "icmp " ++ pred.mnemonic ++ " " ++ (← pairText m f ty lhs rhs)
  | .convert op source value target =>
    return op.mnemonic ++ " " ++ source.text ++ " " ++ (← operandText m f value) ++ " to " ++
      target.text
  | .phi ty incoming =>
    return "phi " ++ ty.text ++ " " ++ ", ".intercalate (← incoming.mapM (edgeText m f))
  | .call site => return "call " ++ (← callSiteText m f site)
  | .invoke site normal unwind =>
    return "invoke " ++ (← callSiteText m f site) ++ " to " ++ (← labelText f normal) ++
      " unwind " ++ (← labelText f unwind)
  | .br dest => return "br " ++ (← labelText f dest)
  | .condBr cond thenDest elseDest =>
    return "br i1 " ++ (← operandText m f cond) ++ ", " ++ (← labelText f thenDest) ++ ", " ++
      (← labelText f elseDest)
  | .ret ty (some value) => return "ret " ++ ty.text ++ " " ++ (← operandText m f value)
  | .ret _ none => "ret void"
  | .unreachable => "unreachable"

def instructionText (m : Module) (f : Function) (inst : Instruction) : Option String := do
  let result ← match inst.result with
    | some id => (· ++ " = ") <$> valueText f id
    | none => pure ""
  let dbg := match inst.dbg with
    | some node => ", !dbg !" ++ toString node.toNat
    | none => ""
  return "  " ++ result ++ (← operationText m f inst.op) ++ dbg

/-- The label line of a block; a nameless entry block has none. -/
def labelLine (isEntry : Bool) (b : Block) : String :=
  if isEntry && b.name.isEmpty then "" else spelled b.name ++ ":\n"

def blockLines (m : Module) (f : Function) (isEntry : Bool) (b : Block) : Option String := do
  let insts ← b.insts.mapM (instructionText m f)
  return labelLine isEntry b ++ .join (insts.map (· ++ "\n"))

def paramText (f : Function) (position : Nat) (id : ValueId) : Option String := do
  let v ← f.value? id
  let attrs := f.attrs.param position
  return v.ty.text ++ (if attrs.isEmpty then "" else " " ++ attrs) ++
    (if f.isDeclaration then "" else " " ++ localNameText v.name)

def wordText (word : String) : String := if word.isEmpty then "" else word ++ " "

def headText (f : Function) : Option String := do
  let params ← (f.params.zipIdx).mapM fun (id, position) => paramText f position id
  let params := params ++ if f.variadic then ["..."] else []
  return wordText f.linkage.keyword ++ wordText f.attrs.lead ++ f.ret.text ++ " " ++
    globalNameText f.name ++ "(" ++ ", ".intercalate params ++ ")" ++
    (if f.attrs.trail.isEmpty then "" else " " ++ f.attrs.trail)

def functionText (m : Module) (f : Function) : Option String := do
  match f.blocks with
  | [] => return "declare " ++ (← headText f) ++ "\n"
  | entry :: blocks =>
    let entry ← blockLines m f true entry
    let blocks ← blocks.mapM (blockLines m f false)
    return "define " ++ (← headText f) ++ " \x7b\n" ++ "\n".intercalate (entry :: blocks) ++
      "\x7d\n"

/-- An external variable without an initial value says that it is external. -/
def globalText (g : Global) : String :=
  let linkage := if g.linkage = .external && g.initial.isNone then "external" else g.linkage.keyword
  globalNameText g.name ++ " = " ++ wordText linkage ++ wordText g.qualifiers ++
    (if g.isConstant then "constant " else "global ") ++ g.ty.text ++
    (match g.initial with | some c => " " ++ c.text | none => "") ++ alignText g.align ++
    (if g.attachments.isEmpty then "" else ", " ++ g.attachments)

def sectionText (lines : List String) : String :=
  if lines.isEmpty then "" else "\n" ++ .join (lines.map (· ++ "\n"))

def propertyText (name : String) (value : Option String) : String :=
  match value with
  | some text => name ++ " = \"" ++ text ++ "\"\n"
  | none => ""

def moduleText (m : Module) : Option String := do
  let functions ← m.functions.mapM fun f => return "\n" ++ (← functionText m f)
  return "; ModuleID = '" ++ m.name ++ "'\n" ++
    propertyText "source_filename" m.sourceFilename ++
    propertyText "target datalayout" m.datalayout ++
    propertyText "target triple" m.triple ++
    sectionText m.comdats ++
    sectionText (m.globals.map globalText) ++
    .join functions ++
    sectionText m.attributeGroups ++
    sectionText (m.namedMetadata.map (fun (name, text) => "!" ++ name ++ " = " ++ text) ++
      m.metadata.map fun (node, text) => "!" ++ toString node.toNat ++ " = " ++ text)

end BlockTally.Listing
