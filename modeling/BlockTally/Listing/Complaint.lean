import BlockTally.Code.EditError
import BlockTally.Listing.Token
import BlockTally.Text.Offset

/-! Why a text is not taken as a listing, and where. -/
namespace BlockTally.Listing

inductive Wanted where
  | token (t : Token)
  | either (one other : String)
  | entity
  | globalName
  | localName
  | quoted
  | integer
  | returnTy
  | ty
  | operand
  | callee
  | instruction
  | comparison
  deriving DecidableEq

def Wanted.described : Wanted → String
  | .token t => t.described
  | .either one other => "`" ++ one ++ "` or `" ++ other ++ "`"
  | .entity => "a top-level entity"
  | .globalName => "a global name"
  | .localName => "a local name"
  | .quoted => "a string"
  | .integer => "an integer"
  | .returnTy => "a return type"
  | .ty => "a type"
  | .operand => "an operand"
  | .callee => "a callee"
  | .instruction => "an instruction"
  | .comparison => "a comparison predicate"

inductive Cause where
  | unrecognized
  /-- No token was found at the end of the input. -/
  | expected (what : Wanted) (found : Option Token)
  | outsideWord32
  | unclosedGroup
  | unexpectedWord (word : String)
  | unknownTarget (word : String)
  | refusedEdit (e : EditError)
  | noBody
  | unterminatedBody
  | duplicateParameter (name : String)
  | duplicateLabel (name : String)
  | unsupportedTy (word : String)
  | aggregateTy
  | pointerToVoid
  | integerFor (ty : Ty)
  | zeroOfVoid
  | invalidConstant (word : String) (ty : Ty)
  | unsupportedInstruction (word : String)
  | unknownComparison (word : String)
  | expectedNode
  | noResult (opcode : String)
  | redefinition (name : String)
  | undefinedValue (name : String)
  | undefinedSymbol (name : String)
  | undefinedLabel (name : String)
  deriving DecidableEq

def Cause.message : Cause → String
  | .unrecognized => "unrecognized input"
  | .expected what found =>
    "expected " ++ what.described ++ ", found " ++ (found.map Token.described).getD "end of input"
  | .outsideWord32 => "integer out of range"
  | .unclosedGroup => "unclosed delimiter"
  | .unexpectedWord word => "unexpected `" ++ word ++ "` at top level"
  | .unknownTarget word => "unknown target property `" ++ word ++ "`"
  | .refusedEdit e => e.message
  | .noBody => "function definition has no body"
  | .unterminatedBody => "unterminated function body"
  | .duplicateParameter name => "duplicate parameter `%" ++ name ++ "`"
  | .duplicateLabel name => "duplicate label `" ++ name ++ "`"
  | .unsupportedTy word => "unsupported type `" ++ word ++ "`"
  | .aggregateTy => "aggregate and vector types are not supported"
  | .pointerToVoid => "pointer to `void` is not a valid type"
  | .integerFor ty => "integer constant for `" ++ ty.text ++ "`"
  | .zeroOfVoid => "`zeroinitializer` for `void`"
  | .invalidConstant word ty => "invalid constant `" ++ word ++ "` for `" ++ ty.text ++ "`"
  | .unsupportedInstruction word => "unsupported instruction `" ++ word ++ "`"
  | .unknownComparison word => "unknown predicate `" ++ word ++ "`"
  | .expectedNode => "expected a metadata node"
  | .noResult opcode => "`" ++ opcode ++ "` does not produce a value"
  | .redefinition name => "redefinition of `%" ++ name ++ "`"
  | .undefinedValue name => "use of undefined value `%" ++ name ++ "`"
  | .undefinedSymbol name => "use of undefined symbol `@" ++ name ++ "`"
  | .undefinedLabel name => "use of undefined label `%" ++ name ++ "`"

structure Complaint where
  place : Option Nat
  cause : Cause
  deriving DecidableEq

inductive ReadError where
  | malformed (position : Text.Position) (cause : Cause)
  | bitcode
  | notUtf8
  deriving DecidableEq

def ReadError.message : ReadError → String
  | .malformed position cause =>
    toString position.line ++ ":" ++ toString position.column ++ ": " ++ cause.message
  | .bitcode => "bitcode input is not supported, disassemble it with llvm-dis first"
  | .notUtf8 => "input is not valid UTF-8"

end BlockTally.Listing
