import BlockTally.Folder
import BlockTally.Listing.Parse
import BlockTally.Tally.Update

/-! Loading a module that is known to be valid, and counting its blocks. -/
namespace BlockTally

inductive ToolError where
  | io (e : FileError)
  | parse (e : Listing.ReadError)
  | invalidModule (defects : List Defect)
  | pass (e : PassError)
  deriving DecidableEq

namespace ToolError

def message : ToolError → String
  | .io e => "IO error: " ++ e.message
  | .parse e => "parse error: " ++ e.message
  | .invalidModule defects =>
    "module failed verification with " ++ toString defects.length ++ " error(s)"
  | .pass e => e.message

def isInvalidModule : ToolError → Bool
  | .parse _ | .invalidModule _ => true
  | .io _ | .pass _ => false

end ToolError

structure Loaded where
  module : Module
  warnings : List Warning

/-- Every warning is about debug information. -/
def Loaded.debugInfoBroken (l : Loaded) : Bool := !l.warnings.isEmpty

def load (name : String) (bytes : ByteArray) : Except (Failure ToolError) Loaded := do
  let m ← (Listing.parseBytes name bytes).mapError (Failure.map .parse)
  if m.isValid then return ⟨m, m.warnings⟩ else throw (.refused (.invalidModule m.defects))

def loadFile (path : String) (contents : Except FileError ByteArray) :
    Except (Failure ToolError) Loaded :=
  match contents with
  | .ok bytes => load (Folder.baseName path) bytes
  | .error e => .error (.refused (.io e))

def instrument (s : Tally.Settings) : Edit Module PassError Bool := Pass.runAll true [Tally.pass s]

end BlockTally
