/-! How a symbol is seen by the linker. -/
namespace BlockTally

inductive Linkage where
  | external
  | internal
  | unlisted
  | common
  | weak
  | linkOnce
  deriving DecidableEq

namespace Linkage

/-- External linkage is the default and has no keyword of its own in a listing. -/
def keyword : Linkage → String
  | .external => ""
  | .internal => "internal"
  | .unlisted => "private"
  | .common => "common"
  | .weak => "weak"
  | .linkOnce => "linkonce"

def ofKeyword? : String → Option Linkage
  | "external" => some .external
  | "internal" => some .internal
  | "private" => some .unlisted
  | "common" => some .common
  | "weak" => some .weak
  | "linkonce" | "linkonce_odr" => some .linkOnce
  | _ => none

end Linkage

end BlockTally
