import BlockTally.Command.Arguments
import BlockTally.Findings.Finding
import BlockTally.Host
import BlockTally.Load

/-! What the command does: it reports on a module or counts its blocks. All of the output is known
before any of it is written. -/
namespace BlockTally.Command

def usageLine : String := "usage: bbcount <IR file>\n"

def lines (text : List String) : String := .join (text.map (· ++ "\n"))

structure Reply where
  exit : Nat := 0
  out : ByteArray := .empty
  err : List String := []

/-- What a run comes to. It crashes where an index leads out of its table. -/
inductive Outcome where
  | crash
  | fail (lines : List String)
  | print (text : String)
  | store (path text : String)
  deriving DecidableEq

structure Plan where
  said : List String := []
  outcome : Outcome
  deriving DecidableEq

def errorLine (message : String) : String := "error: " ++ message

def loadFailed (path : String) : ToolError → List String
  | .parse e => [path ++ ": " ++ e.message, errorLine "invalid module"]
  | .invalidModule defects =>
    defects.map (path ++ ": " ++ ·.message) ++ [errorLine "invalid module"]
  | e => [errorLine e.message]

def reported (m : Module) (detailed : Bool) : Outcome :=
  match (m.findings detailed).mapM (·.line m) with
  | some found => .print (lines found)
  | none => .crash

def hookWarning (s : Tally.Settings) (m : Module) : List String :=
  match Tally.setUp s m with
  | (.ok (some _), m) =>
    if ((m.functionNamed? s.entry).bind m.function?).any Function.isDeclaration then
      ["WARN entry function is only declared, hook call not inserted function=" ++ s.entry]
    else []
  | _ => []

def instrumented (a : Arguments) (m : Module) : Outcome :=
  match instrument a.settings m with
  | (.error .outOfRange, _) => .crash
  | (.error (.refused e), _) => .fail [errorLine e.message]
  | (.ok _, m) => match Listing.moduleText m, a.output with
    | none, _ => .crash
    | some text, none => .print text
    | some text, some path => .store path text

def plan (a : Arguments) (input : Except FileError ByteArray) : Plan :=
  match loadFile a.input input with
  | .error .outOfRange => { outcome := .crash }
  | .error (.refused e) => { outcome := .fail (loadFailed a.input e) }
  | .ok loaded =>
    let cautions := if loaded.debugInfoBroken then ["caution: debug info is broken"] else []
    if a.instruments then
      let warnings := if a.warns then hookWarning a.settings loaded.module else []
      { said := cautions ++ warnings, outcome := instrumented a loaded.module }
    else { said := cautions, outcome := reported loaded.module a.detailed }

def Outcome.carryOut (host : Host) (folder : Folder) : Outcome → Reply × Folder
  | .crash => ({ exit := 101 }, folder)
  | .fail lines => ({ exit := 1, err := lines }, folder)
  | .print text => match host.print text.toUTF8 with
    | (none, out) => ({ out }, folder)
    | (some e, out) => ({ exit := 1, out, err := [errorLine e.message] }, folder)
  | .store path text => match host.write folder path text.toUTF8 with
    | (none, folder) => ({}, folder)
    | (some e, folder) => ({ exit := 1, err := [errorLine (ToolError.io e).message] }, folder)

/-- A text that is asked for need not arrive; that the usage does not is a crash. -/
def stopped (host : Host) : Stop → Reply
  | .shown text => { out := (host.print text.toUTF8).2 }
  | .misuse => match host.print usageLine.toUTF8 with
    | (none, out) => { exit := 1, out }
    | (some _, out) => { exit := 101, out }

def run (clap : List String → Except Stop Arguments) (host : Host) (words : List String)
    (folder : Folder) : Reply × Folder :=
  match clap words with
  | .error stop => (stopped host stop, folder)
  | .ok a =>
    let p := plan a (host.read folder a.input)
    let (reply, folder) := p.outcome.carryOut host folder
    ({ reply with err := p.said ++ reply.err }, folder)

end BlockTally.Command
