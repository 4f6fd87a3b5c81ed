import BlockTally.Folder

/-! The system that a command runs on. It may refuse a file that is there, and it may break off
what is being written. -/
namespace BlockTally

structure Fault where
  taken : Nat
  cause : FileError

structure Host where
  unreadable : String → Option FileError := fun _ => none
  unwritable : String → Option FileError := fun _ => none
  storing : String → ByteArray → Option Fault := fun _ _ => none
  printing : ByteArray → Option Fault := fun _ => none

namespace Host

def read (host : Host) (folder : Folder) (path : String) : Except FileError ByteArray :=
  match host.unreadable path with
  | some e => .error e
  | none => folder.read path

def target (host : Host) (folder : Folder) (path : String) : Except FileError (List String) :=
  match host.unwritable path with
  | some e => .error e
  | none => folder.target path

/-- A file loses what it holds when it is opened, before anything is written to it. -/
def write (host : Host) (folder : Folder) (path : String) (bytes : ByteArray) :
    Option FileError × Folder :=
  match host.target folder path with
  | .error e => (some e, folder)
  | .ok place => match host.storing path bytes with
    | none => (none, folder.put place bytes)
    | some fault => (some fault.cause, folder.put place (bytes.extract 0 fault.taken))

def print (host : Host) (bytes : ByteArray) : Option FileError × ByteArray :=
  match host.printing bytes with
  | none => (none, bytes)
  | some fault => (some fault.cause, bytes.extract 0 fault.taken)

end Host

end BlockTally
