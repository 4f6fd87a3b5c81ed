import BlockTally.Code.Function
import BlockTally.Failure

/-! Modules: globals and functions, which share one space of names, and text kept as it was read. -/
namespace BlockTally

/-- A global variable. Qualifiers stand before the word `global`, attachments behind all the rest;
both are kept as text. Without an initial value the variable is defined elsewhere. -/
structure Global where
  name : String
  ty : Ty
  linkage : Linkage := .external
  isConstant : Bool := false
  qualifiers : String := ""
  initial : Option Constant := none
  align : Option UInt32 := none
  attachments : String := ""
  deriving DecidableEq

inductive Symbol where
  | global (id : GlobalId)
  | function (id : FuncId)
  deriving DecidableEq

structure Module where
  name : String
  sourceFilename : Option String := none
  datalayout : Option String := none
  triple : Option String := none
  globals : List Global := []
  functions : List Function := []
  metadata : List (UInt32 × String) := []
  namedMetadata : List (String × String) := []
  comdats : List String := []
  attributeGroups : List String := []
  deriving DecidableEq

namespace Module

def global? (m : Module) (id : GlobalId) : Option Global := m.globals[id.index]?

def function? (m : Module) (id : FuncId) : Option Function := m.functions[id.index]?

def globalNamed? (m : Module) (name : String) : Option GlobalId :=
  (m.globals.findIdx? (·.name == name)).map .mk

def functionNamed? (m : Module) (name : String) : Option FuncId :=
  (m.functions.findIdx? (·.name == name)).map .mk

/-- What a name stands for. A name is claimed once, so that no symbol hides another. -/
def symbol? (m : Module) (name : String) : Option Symbol :=
  ((m.globalNamed? name).map .global).or ((m.functionNamed? name).map .function)

def addGlobal (g : Global) (m : Module) : Except EditError (GlobalId × Module) :=
  if (m.symbol? g.name).isSome then .error (.duplicateSymbol g.name)
  else .ok (⟨m.globals.length⟩, { m with globals := m.globals ++ [g] })

def addFunction (f : Function) (m : Module) : Except EditError (FuncId × Module) :=
  if (m.symbol? f.name).isSome then .error (.duplicateSymbol f.name)
  else .ok (⟨m.functions.length⟩, { m with functions := m.functions ++ [f] })

def functionFor (name : String) (sig : Signature) (m : Module) :
    Except EditError (FuncId × Module) :=
  match m.symbol? name with
  | none => m.addFunction (.declare name sig)
  | some (.global _) => .error (.duplicateSymbol name)
  | some (.function id) =>
    match m.function? id with
    | none => .error (.duplicateSymbol name)
    | some f =>
      if f.signature = sig then .ok (id, m)
      else .error (.signatureMismatch name sig f.signature)

def setFunction (id : FuncId) (f : Function) (m : Module) : Module :=
  { m with functions := m.functions.set id.index f }

def insertNode (node : UInt32) (text : String) : List (UInt32 × String) → List (UInt32 × String)
  | [] => [(node, text)]
  | entry :: rest =>
    if node < entry.1 then (node, text) :: entry :: rest
    else if node = entry.1 then (node, text) :: rest
    else entry :: insertNode node text rest

def addMetadata (node : UInt32) (text : String) (m : Module) : Module :=
  { m with metadata := insertNode node text m.metadata }

def hasMetadata (m : Module) (node : UInt32) : Bool := m.metadata.any (·.1 == node)

def addNamedMetadata (name text : String) (m : Module) : Module :=
  { m with namedMetadata := m.namedMetadata ++ [(name, text)] }

def addComdat (text : String) (m : Module) : Module := { m with comdats := m.comdats ++ [text] }

def addAttributeGroup (text : String) (m : Module) : Module :=
  { m with attributeGroups := m.attributeGroups ++ [text] }

def blockCount (m : Module) : Nat := (m.functions.flatMap (·.blocks)).length

def instructionCount (m : Module) : Nat :=
  ((m.functions.flatMap (·.blocks)).flatMap (·.insts)).length

def editFunction (id : FuncId) (change : Edit Function ε α) : Edit Module ε α := fun m =>
  match m.function? id with
  | none => (.error .outOfRange, m)
  | some f => change.onPart (fun f m => m.setFunction id f) f m

end Module

end BlockTally
