import BlockTally.Code.Ty

/-! Why a change to a module is refused. -/
namespace BlockTally

inductive EditError where
  | duplicateSymbol (name : String)
  | duplicateValue (function name : String)
  | signatureMismatch (name : String) (expected found : Signature)
  | invalidInsertion (block : String) (index : Nat)
  | missingTerminator (function block : String)
  deriving DecidableEq

def EditError.message : EditError → String
  | .duplicateSymbol name => "symbol `@" ++ name ++ "` is already defined"
  | .duplicateValue function name =>
    "value `%" ++ name ++ "` is already defined in `@" ++ function ++ "`"
  | .signatureMismatch name expected found =>
    "`@" ++ name ++ "` has signature `" ++ found.text ++ "`, expected `" ++ expected.text ++ "`"
  | .invalidInsertion block index =>
    "cannot insert at index " ++ toString index ++ " of block `%" ++ block ++ "`"
  | .missingTerminator function block =>
    "block `%" ++ block ++ "` in `@" ++ function ++ "` has no terminator"

end BlockTally
