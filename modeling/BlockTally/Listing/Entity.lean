import BlockTally.Code.Registry
import BlockTally.Listing.Phrase
import BlockTally.Text.Blank

/-! The top level of a listing. Function bodies are only delimited here: a body may use symbols
that stand further down, so it is read when all of them are known. -/
namespace BlockTally.Listing
open Read

/-- A module so far, and its defined functions with the tokens that follow their opening brace. -/
structure DraftOf (M : Type) where
  module : M
  bodies : List (FuncId × List Lexeme) := []
  deriving DecidableEq

abbrev Draft := DraftOf Module

def span? (src : List Char) (ts : List Lexeme) : Option String :=
  match ts.head?, ts.getLast? with
  | some first, some last => Text.slice? src first.start last.stop
  | _, _ => some ""

def readSpan (src : List Char) (ts : List Lexeme) : Read σ String := present (span? src ts)

def restOfLine (src : List Char) (offset : Nat) : Read σ (List Lexeme) := do
  let stop ← present (Text.lineEnd? src offset)
  taken (skipWhile (·.start < stop))

def lineText (src : List Char) (offset : Nat) : Read σ String := do
  readSpan src (← restOfLine src offset)

/-- The words before the type of a symbol: the last linkage among them, and the others as text. -/
structure Words where
  linkage : Linkage := .external
  others : List String := []

def addWord (src : List Char) (word : String) (run : List Lexeme) (words : Words) : Read σ Words :=
  match Linkage.ofKeyword? word with
  | some linkage => return { words with linkage }
  | none => return { words with others := words.others ++ [← readSpan src run] }

/-- Words up to one that `isLast` accepts, each with its argument in parentheses and, where
`numbered`, with a number. -/
def readWords (src : List Char) (isLast : String → Bool) (numbered : Bool) : Read σ Words :=
  whileNext
    (fun _ t _ => match t.token with
      | .word word => if isLast word then none else some (t, word)
      | _ => none)
    (fun (t, word) words => do
      let argument ← taken do
        if numbered then
          let _ ← accept fun | .int _ => some () | _ => none
        optionalGroup
      addWord src word (t :: argument) words)
    {}

def readParam (src : List Char) (f : Function) : Read σ Function := do
  if ← eat (.punct .ellipsis) then return { f with variadic := true }
  let ty ← readTy
  let attrs ← readSpan src (← taken skipAttributes)
  let f := { f with attrs.params := f.attrs.params ++ [attrs] }
  match ← peek with
  | some ⟨.localName name, start, _⟩ =>
    skip
    if (f.valueNamed? name).isSome then refuseAt (some start) (.duplicateParameter name)
    else return (f.addParam ty name).2
  | _ => return (f.addParam ty "").2

/-- From the return type on. Nothing follows an ellipsis. -/
def readSignature (src : List Char) (words : Words) : Read σ Function := do
  let ret ← readTy
  let name ← demand .globalName fun | .globalName name => some name | _ => none
  let attrs : Attributes := { lead := " ".intercalate words.others }
  let f : Function := { name, ret, linkage := words.linkage, attrs }
  expect (.punct .lparen)
  if ← eat (.punct .rparen) then return f
  let f ← whileNext
    (fun f t _ => if !f.variadic && t.token = .punct .comma then some () else none)
    (fun _ f => readParam src f) (← readParam src f)
  if f.variadic then
    expect (.punct .rparen)
    return f
  else if ← eat (.punct .rparen) then return f
  else unexpected (.token (.punct .comma))

def readHeader (src : List Char) : Read σ Function := do
  let words ← readWords src (fun word => (Ty.ofKeyword? word).isSome) true
  match ← peekToken with
  | some (.word _) => readSignature src words
  | _ => unexpected .returnTy

section
variable {M : Type} [Register M]

def enter (start : Nat) (edit : Edit M EditError α) : Read (DraftOf M) α := do
  match edit (← state).module with
  | (.ok a, module) =>
    update fun draft => { draft with module }
    return a
  | (.error (.refused e), _) => refuseAt (some start) (.refusedEdit e)
  | (.error .outOfRange, _) => outOfRange

def alter (f : Module → Module) : Read (DraftOf M) Unit :=
  update fun draft => { draft with module := Register.alter f draft.module }

/-- Attributes of a declaration end with its line. -/
def readDeclaration (src : List Char) (first : Lexeme) : Read (DraftOf M) Unit := do
  let (f, header) ← traced (readHeader src)
  let trail ← match (first :: header).getLast? with
    | some last => lineText src last.stop
    | none => pure f.attrs.trail
  let _ ← enter first.start (Register.addFunction { f with attrs.trail := trail })

/-- Attributes of a definition end with its opening brace, its body with the matching one. -/
def readDefinition (src : List Char) (start : Nat) : Read (DraftOf M) Unit := do
  let f ← readHeader src
  let trail ← readSpan src (← taken (skipWhile (·.token != .punct .lbrace)))
  if !(← eat (.punct .lbrace)) then refuseAt (some start) .noBody
  let body ← ahead
  closeGroup .lbrace .rbrace (some start) .unterminatedBody
  let id ← enter start (Register.addFunction { f with attrs.trail := trail })
  update fun draft => { draft with bodies := draft.bodies ++ [(id, body)] }

/-- What follows the name of a global. Attachments end with the line on which the global starts. -/
def readGlobal (src : List Char) (start : Nat) (name : String) : Read (DraftOf M) Unit := do
  expect (.punct .equals)
  let words ← readWords src (fun word => word = "global" || word = "constant") false
  let last ← word (.either "global" "constant")
  let ty ← readTy
  let initial ← readConstant? ty
  let align ← whileNext
    (fun _ t ts =>
      if t.token = .punct .comma && ts.head?.map Lexeme.token = some (.word "align") then some ()
      else none)
    (fun _ _ => do
      skip
      return some (← readWord32))
    none
  let attachments ← if ← eat (.punct .comma) then lineText src start else pure ""
  let _ ← enter start <| Register.addGlobal
    { name, ty, linkage := words.linkage, isConstant := last = "constant"
      qualifiers := " ".intercalate words.others, initial, align, attachments }

def readQuoted : Read σ String := demand .quoted fun | .quoted text => some text | _ => none

def readTarget : Read (DraftOf M) Unit := do
  let start ← place
  let property ← word (.either "datalayout" "triple")
  expect (.punct .equals)
  let text ← readQuoted
  match property with
  | "datalayout" => alter fun m => { m with datalayout := some text }
  | "triple" => alter fun m => { m with triple := some text }
  | _ => refuseAt start (.unknownTarget property)

/-- An equals sign, and the text from there to the end of its line, comments included. -/
def readNode (src : List Char) (first : Lexeme) : Read σ String := do
  let took ← taken (expect (.punct .equals))
  let start := (← present (first :: took).getLast?).stop
  let stop ← present (Text.lineEnd? src start)
  let _ ← restOfLine src start
  return Text.trimmed (← present (Text.slice? src start stop))

def readEntity (src : List Char) (first : Lexeme) : Read (DraftOf M) Unit := do
  match first.token with
  | .word "source_filename" =>
    expect (.punct .equals)
    let text ← readQuoted
    alter fun m => { m with sourceFilename := some text }
  | .word "target" => readTarget
  | .word "declare" => readDeclaration src first
  | .word "define" => readDefinition src first.start
  | .word "attributes" =>
    let line ← restOfLine src first.start
    let text ← readSpan src (first :: line)
    alter (·.addAttributeGroup text)
  | .word word => refuseAt (some first.start) (.unexpectedWord word)
  | .globalName name => readGlobal src first.start name
  | .comdatRef =>
    let line ← restOfLine src first.start
    let text ← readSpan src (first :: line)
    alter (·.addComdat text)
  | .nodeRef node =>
    let text ← readNode src first
    alter (·.addMetadata node text)
  | .nodeName name =>
    let text ← readNode src first
    alter (·.addNamedMetadata name text)
  | other => refuseAt (some first.start) (.expected .entity (some other))

def readEntities (src : List Char) : Read (DraftOf M) Unit :=
  whileNext (fun _ t _ => some t) (fun t _ => readEntity src t) ()

end

end BlockTally.Listing
