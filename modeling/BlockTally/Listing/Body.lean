import BlockTally.Code.Module
import BlockTally.Listing.Phrase

/-! Function bodies. Labels are collected before instructions are read, so that a branch may go to
a later block; a value used before its definition is entered in the table at its first use. -/
namespace BlockTally.Listing
open Read

/-- The function being filled, and its values that are used but not yet defined, with the place of
their first use and in the order of those. -/
structure Scope where
  function : Function
  pending : List (String × Nat) := []
  deriving DecidableEq

def addLocal (start : Nat) (name : String) (ty : Ty) : Read Scope ValueId := do
  match (← state).function.addNamedValue name ty .instruction with
  | .ok (id, function) =>
    update fun scope => { scope with function }
    return id
  | .error e => refuseAt (some start) (.refusedEdit e)

def defineLocal (start : Nat) (name : String) (ty : Ty) : Read Scope ValueId := do
  let scope ← state
  match scope.function.valueNamed? name with
  | none => addLocal start name ty
  | some id =>
    if !scope.pending.any (·.1 == name) then refuseAt (some start) (.redefinition name)
    else match scope.function.retype id ty with
      | none => outOfRange
      | some function =>
        update fun scope => { function, pending := scope.pending.filter (·.1 != name) }
        return id

section
variable (symbol? : String → Option Symbol)

/-- An operand used at a type, which a value that is not yet defined has until it is. -/
def readOperand (ty : Ty) : Read Scope Operand := do
  match ← peek with
  | some ⟨.localName name, start, _⟩ =>
    skip
    match (← state).function.valueNamed? name with
    | some id => return .value id
    | none =>
      let id ← addLocal start name ty
      update fun scope => { scope with pending := scope.pending ++ [(name, start)] }
      return .value id
  | some ⟨.globalName name, start, _⟩ =>
    skip
    match symbol? name with
    | some (.global id) => return .global id
    | some (.function id) => return .function id
    | none => refuseAt (some start) (.undefinedSymbol name)
  | _ =>
    match ← readConstant? ty with
    | some c => return .constant c
    | none => unexpected .operand

def readBlock : Read Scope BlockId := do
  let start ← place
  let name ← demand .localName fun | .localName name => some name | _ => none
  match (← state).function.blockNamed? name with
  | some id => return id
  | none => refuseAt start (.undefinedLabel name)

def expectComma : Read σ Unit := expect (.punct .comma)

def expectWord (text : String) : Read σ Unit := expect (.word text)

def readLabel : Read Scope BlockId := do
  expectWord "label"
  readBlock

def readPointer : Read Scope Operand := do
  let _ ← readTy
  readOperand symbol? .ptr

def readArg : Read Scope (Ty × Operand) := do
  let ty ← readTy
  skipAttributes
  return (ty, ← readOperand symbol? ty)

def readArgs : Read Scope (List (Ty × Operand)) := do
  if ← eat (.punct .rparen) then return []
  let args ← whileNext (fun _ t _ => if t.token = .punct .comma then some () else none)
    (fun _ args => return args ++ [← readArg symbol?]) [← readArg symbol?]
  if ← eat (.punct .rparen) then return args
  else unexpected (.token (.punct .comma))

/-- The parameter types of the callee may stand before it; they are passed over, as are attribute
groups behind the arguments. -/
def readCallSite : Read Scope CallSite := do
  skipAttributes
  let ret ← readTy
  if (← peekToken) = some (.punct .lparen) then
    group .lparen .rparen
    let _ ← eat (.punct .star)
  let callee ← match ← peekToken with
    | some (.localName _) | some (.globalName _) => readOperand symbol? .ptr
    | _ => unexpected .callee
  expect (.punct .lparen)
  let args ← readArgs symbol?
  whileNext (fun _ t _ => if t.token = .attrRef then some () else none) (fun _ _ => return ()) ()
  return { ret, callee, args }

def readEdge (ty : Ty) : Read Scope (Operand × BlockId) := do
  expect (.punct .lbracket)
  let value ← readOperand symbol? ty
  expectComma
  let block ← readBlock
  expect (.punct .rbracket)
  return (value, block)

/-- The flags of an arithmetic operation in any order; `disjoint` and `exact` have no effect. -/
def readFlags : Read σ (Bool × Bool) :=
  whileNext
    (fun _ t _ => match t.token with
      | .word text => if ["nuw", "nsw", "disjoint", "exact"].contains text then some text else none
      | _ => none)
    (fun text (nuw, nsw) => return (nuw || text == "nuw", nsw || text == "nsw"))
    (false, false)

def readArith (op : Arith) : Read Scope Operation := do
  let (nuw, nsw) ← readFlags
  let ty ← readTy
  let lhs ← readOperand symbol? ty
  expectComma
  return .arith op ty lhs (← readOperand symbol? ty) nuw nsw

def readConversion (op : Conversion) : Read Scope Operation := do
  let source ← readTy
  let value ← readOperand symbol? source
  expectWord "to"
  return .convert op source value (← readTy)

def readComparison : Read Scope Operation := do
  let text ← word .comparison
  match Comparison.ofMnemonic? text with
  | none => refuse (.unknownComparison text)
  | some pred =>
    let ty ← readTy
    let lhs ← readOperand symbol? ty
    expectComma
    return .icmp pred ty lhs (← readOperand symbol? ty)

def readLoad : Read Scope Operation := do
  let _ ← eat (.word "volatile")
  let ty ← readTy
  expectComma
  return .load ty (← readPointer symbol?) none

def readStore : Read Scope Operation := do
  let _ ← eat (.word "volatile")
  let ty ← readTy
  let value ← readOperand symbol? ty
  expectComma
  return .store ty value (← readPointer symbol?) none

/-- Edges are separated by commas; a comma with anything but an edge behind it is left. -/
def readPhi : Read Scope Operation := do
  let ty ← readTy
  let incoming ← whileNext
    (fun _ t ts =>
      if t.token = .punct .comma && ts.head?.map Lexeme.token = some (.punct .lbracket) then some ()
      else none)
    (fun _ edges => return edges ++ [← readEdge symbol? ty]) [← readEdge symbol? ty]
  return .phi ty incoming

def readInvoke : Read Scope Operation := do
  let site ← readCallSite symbol?
  expectWord "to"
  let normal ← readLabel
  expectWord "unwind"
  return .invoke site normal (← readLabel)

def readBranch : Read Scope Operation := do
  if (← peekToken) = some (.word "label") then return .br (← readLabel)
  let ty ← readTy
  let cond ← readOperand symbol? ty
  expectComma
  let thenDest ← readLabel
  expectComma
  return .condBr cond thenDest (← readLabel)

def readReturn : Read Scope Operation := do
  let ty ← readTy
  if ty.isVoid then return .ret ty none
  else return .ret ty (some (← readOperand symbol? ty))

def readOperation (opcode : String) : Read Scope Operation :=
  match Arith.ofMnemonic? opcode, Conversion.ofMnemonic? opcode with
  | some op, _ => readArith symbol? op
  | none, some op => readConversion symbol? op
  | none, none =>
    match opcode with
    | "alloca" => return .alloca (← readTy) none
    | "load" => readLoad symbol?
    | "store" => readStore symbol?
    | "icmp" => readComparison symbol?
    | "phi" => readPhi symbol?
    | "call" => return .call (← readCallSite symbol?)
    | "invoke" => readInvoke symbol?
    | "br" => readBranch symbol?
    | "ret" => readReturn symbol?
    | "unreachable" => return .unreachable
    | _ => refuse (.unsupportedInstruction opcode)

structure Trailer where
  align : Option UInt32 := none
  dbg : Option UInt32 := none

def readAttachment : Read σ (Option UInt32) := do
  let next ← peekToken
  skip
  match next.bind Token.node? with
  | some node => return some node
  | none =>
    if next = some (.punct .bang) then
      if (← peekToken) = some (.punct .lbrace) then
        group .lbrace .rbrace
        return none
      else refuse .expectedNode
    else refuse .expectedNode

/-- Alignments and attachments, each after a comma; the last of a kind counts. -/
def readTrailer : Read σ Trailer :=
  whileNext
    (fun _ t ts => if t.token != .punct .comma then none else
      match ts.head?.map Lexeme.token with
      | some (.word "align") => some none
      | some (.nodeName kind) => some (some kind)
      | _ => none)
    (fun kind trailer => do
      skip
      match kind with
      | none => return { trailer with align := some (← readWord32) }
      | some kind =>
        match ← readAttachment with
        | some node => return if kind = "dbg" then { trailer with dbg := some node } else trailer
        | none => return trailer)
    {}

def readOpcode (first : Lexeme) : Read σ (Option String × String) := do
  match first.token, ← peekToken with
  | .localName name, some (.punct .equals) =>
    skip
    return (some name, ← word .instruction)
  | .word text, _ => return (none, text)
  | other, _ => refuseAt (some first.start) (.expected .instruction (some other))

def readInstruction (first : Lexeme) : Read Scope Instruction := do
  let (result, text) ← readOpcode first
  let opcode ← if ["tail", "musttail", "notail"].contains text then word (.token (.word "call"))
    else pure text
  let op ← readOperation symbol? opcode
  let trailer ← readTrailer
  let inst : Instruction := { op := op.aligned trailer.align, dbg := trailer.dbg }
  match result with
  | none => return inst
  | some name =>
    if op.resultTy.isVoid then refuseAt (some first.start) (.noResult opcode)
    else return { inst with result := some (← defineLocal first.start name op.resultTy) }

/-- The labels up to the first closing brace, each with its place. -/
def labels (ts : List Lexeme) : List (String × Nat) :=
  (ts.takeWhile (·.token != .punct .rbrace)).filterMap fun t =>
    match t.token with
    | .label name => some (name, t.start)
    | _ => none

def addLabels : List (String × Nat) → Read Scope Unit
  | [] => return ()
  | (name, start) :: rest => do
    if ((← state).function.blockNamed? name).isSome then
      refuseAt (some start) (.duplicateLabel name)
    update fun scope => { scope with function := (scope.function.addBlock name).2 }
    addLabels rest

/-- Puts instructions into the blocks by their order; each label moves on to the next block. -/
def fillBlocks : Read Scope Nat :=
  whileNext (fun _ t _ => if t.token = .punct .rbrace then none else some t)
    (fun t current => match t.token with
      | .label _ => return current + 1
      | _ => do
        let inst ← readInstruction symbol? t
        match (← state).function.push ⟨current⟩ inst with
        | none => outOfRange
        | some function =>
          update fun scope => { scope with function }
          return current)
    0

/-- A body after its opening brace. Instructions before the first label are a block of their own,
which has no name. -/
def readBody : Read Scope Unit := do
  match ← peekToken with
  | some (.label _) =>
    addLabels (labels (← ahead))
    skip
  | _ =>
    update fun scope => { scope with function := (scope.function.addBlock "").2 }
    addLabels (labels (← ahead))
  let _ ← fillBlocks symbol?
  if !(← eat (.punct .rbrace)) then refuse .unterminatedBody
  match (← state).pending.head? with
  | none => return ()
  | some (name, start) => refuseAt (some start) (.undefinedValue name)

end

end BlockTally.Listing
