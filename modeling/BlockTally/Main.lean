import BlockTally.Command.Run

/-! The command on the files and the streams of the system. -/
namespace BlockTally.Command

def fileError : IO.Error → FileError
  | .noFileOrDirectory .. => .notFound
  | .inappropriateType _ code _ => if code = 20 || code = -20 then .notDirectory else .isDirectory
  | .invalidArgument _ code _ => if code = 36 || code = -36 then .nameTooLong else .nulByte
  | .permissionDenied .. => .other "Permission denied (os error 13)"
  | e => .other (toString e)

def readInput (path : String) : IO (Except FileError ByteArray) :=
  tryCatch (return .ok (← IO.FS.readBinFile path)) fun e => return .error (fileError e)

def writeText (write : IO Unit) : IO (Option FileError) :=
  tryCatch (do write; return none) fun e => return some (fileError e)

def printText (text : String) : IO (Option FileError) := writeText do
  let out ← IO.getStdout
  out.putStr text
  out.flush

def Outcome.perform : Outcome → IO (UInt32 × List String)
  | .crash => return (101, [])
  | .fail lines => return (1, lines)
  | .print text => return match ← printText text with
    | none => (0, [])
    | some e => (1, [errorLine e.message])
  | .store path text => return match ← writeText (IO.FS.writeFile path text) with
    | none => (0, [])
    | some e => (1, [errorLine (ToolError.io e).message])

def main (clap : List String → Except Stop Arguments) (words : List String) : IO UInt32 := do
  match clap words with
  | .error (.shown text) =>
    discard (printText text)
    return 0
  | .error .misuse => return if (← printText usageLine).isNone then 1 else 101
  | .ok a =>
    let p := plan a (← readInput a.input)
    p.said.forM fun line => IO.eprintln line
    let (exit, lines) ← p.outcome.perform
    lines.forM fun line => IO.eprintln line
    return exit

end BlockTally.Command
