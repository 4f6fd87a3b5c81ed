/-! Settings of the block counter. -/
namespace BlockTally.Tally

inductive OnExisting where
  | fail
  | skip
  deriving DecidableEq

structure Settings where
  entry : String := "main"
  counter : String := "bbCounter"
  hook : String := "setupAtExit"
  onExisting : OnExisting := .fail
  deriving DecidableEq

end BlockTally.Tally
