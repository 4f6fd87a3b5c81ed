import BlockTally.Listing.Body
import BlockTally.Listing.Entity
import BlockTally.Listing.Lexer

/-! From text to a module. -/
namespace BlockTally.Listing

def complain (src : List Char) : Failure Complaint → Failure ReadError
  | .outOfRange => .outOfRange
  | .refused c =>
    match Text.positionIn? (Text.lineStarts src) (c.place.getD (Text.byteLength src)) with
    | some position => .refused (.malformed position c.cause)
    | none => .outOfRange

def fillFunction [Register M] (m : M) : FuncId × List Lexeme → Except (Failure Complaint) M
  | (id, body) => do
    let (f, m) ← Failure.present (Register.lend id m)
    let (_, _, scope) ← readBody (Register.symbol? m) body { function := f }
    Failure.present (Register.giveBack id scope.function m)

def readModule [Register M] (m : M) (src : List Char) (ts : List Lexeme) :
    Except (Failure Complaint) M := do
  let (_, _, draft) ← readEntities src ts { module := m }
  draft.bodies.foldlM fillFunction draft.module

/-- The registry of the module that a text lists. All tokens are found before any is read. -/
def parseRegistry (name text : String) : Except (Failure ReadError) Registry :=
  let src := text.toList
  match lex src with
  | .error offset => .error (complain src (.refused ⟨some offset, .unrecognized⟩))
  | .ok ts => (readModule (Registry.new name) src ts).mapError (complain src)

def parse (name text : String) : Except (Failure ReadError) Module :=
  (parseRegistry name text).map (·.module)

def bitcodeMagics : List (List UInt8) := [[0x42, 0x43, 0xC0, 0xDE], [0xDE, 0xC0, 0x17, 0x0B]]

def parseBytes (name : String) (bytes : ByteArray) : Except (Failure ReadError) Module :=
  if bitcodeMagics.any (·.isPrefixOf bytes.toList) then .error (.refused .bitcode)
  else match String.fromUTF8? bytes with
    | none => .error (.refused .notUtf8)
    | some text => parse name text

end BlockTally.Listing
