import BlockTally.Tally.Settings

/-! The arguments of the command, as the reader of the command line hands them over. -/
namespace BlockTally.Command

inductive Stop where
  | shown (text : String)
  | misuse
  deriving DecidableEq

structure Arguments where
  input : String
  instrument : Bool := false
  output : Option String := none
  entry : String := "main"
  counter : String := "bbCounter"
  hook : String := "setupAtExit"
  onExisting : Tally.OnExisting := .fail
  detailed : Bool := false
  verbose : Bool := false
  silent : Bool := false
  deriving DecidableEq

namespace Arguments

def instruments (a : Arguments) : Bool := a.instrument || a.output.isSome

def settings (a : Arguments) : Tally.Settings :=
  { entry := a.entry, counter := a.counter, hook := a.hook, onExisting := a.onExisting }

def warns (a : Arguments) : Bool := a.verbose || !a.silent

end Arguments

end BlockTally.Command
