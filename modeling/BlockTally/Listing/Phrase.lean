import BlockTally.Code.Operand
import BlockTally.Listing.Read

/-! The phrases that top-level entities and instructions share: types, constants and attributes. -/
namespace BlockTally.Listing
open Read

/-- A type keyword. A star behind it makes it a pointer, whatever it points to. -/
def readTy : Read σ Ty := do
  let start ← place
  match ← peekToken with
  | some (.word text) =>
    match Ty.ofKeyword? text with
    | none => refuse (.unsupportedTy text)
    | some ty =>
      skip
      whileNext (fun _ t _ => if t.token = .punct .star then some () else none)
        (fun _ ty => if ty.isVoid then refuseAt start .pointerToVoid else return .ptr) ty
  | some (.punct .lbracket) | some (.punct .lbrace) | some (.punct .langle) => refuse .aggregateTy
  | _ => unexpected .ty

def isConstantWord (text : String) : Bool :=
  ["true", "false", "null", "undef", "poison", "zeroinitializer"].contains text

/-- The constant that a token is at a type; `none` for a token that begins no constant at all. -/
def constantOf? (ty : Ty) : Token → Option (Except Cause Constant)
  | .int value =>
    match ty with
    | .int width => some (.ok (.int width value))
    | _ => some (.error (.integerFor ty))
  | .word text =>
    if !isConstantWord text then none
    else if text = "true" && ty = .i1 then some (.ok (.int 1 1))
    else if text = "false" && ty = .i1 then some (.ok (.int 1 0))
    else if text = "null" && ty.isPtr then some (.ok .null)
    else if text = "undef" then some (.ok .undef)
    else if text = "poison" then some (.ok .poison)
    else if text = "zeroinitializer" then
      match Constant.zero? ty with
      | some c => some (.ok c)
      | none => some (.error .zeroOfVoid)
    else some (.error (.invalidConstant text ty))
  | _ => none

def readConstant? (ty : Ty) : Read σ (Option Constant) := do
  match (← peekToken).bind (constantOf? ty) with
  | none => return none
  | some (.ok c) => skip; return some c
  | some (.error cause) => refuse cause

def readWord32 : Read σ UInt32 := do
  let start ← place
  let value ← demand .integer fun | .int value => some value | _ => none
  match Text.word32OfInt? value.toInt with
  | some n => return n
  | none => refuseAt start .outsideWord32

/-- Passes over attributes: words that are neither types nor constants, each with its argument if
it has one, and attribute groups. -/
def skipAttributes : Read σ Unit :=
  whileNext
    (fun _ t _ => match t.token with
      | .attrRef => some none
      | .word text =>
        if (Ty.ofKeyword? text).isNone && !isConstantWord text then some (some text) else none
      | _ => none)
    (fun attr _ => match attr with
      | none => return ()
      | some text => do
        if text = "align" then
          let _ ← accept fun | .int _ => some () | _ => none
        optionalGroup)
    ()

end BlockTally.Listing
