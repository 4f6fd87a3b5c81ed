/-! Names that nothing bears yet. A name that is taken gets a number, and the numbers are tried in
their order for as long as it takes. -/
namespace BlockTally

structure NameSearch where
  taken : String → Bool
  spell : Nat → String

/-- The first of the names from number `n` on that is not taken; `none` of a search without end. -/
def NameSearch.from? (s : NameSearch) (n : Nat) : Option String :=
  if s.taken (s.spell n) then s |>.from? (n + 1) else some (s.spell n)
partial_fixpoint

def uniqueName? (taken : String → Bool) (count : Nat) (hint : String) : Option String :=
  if hint.isEmpty then NameSearch.from? ⟨taken, toString⟩ count
  else if taken hint then NameSearch.from? ⟨taken, (hint ++ toString ·)⟩ 1
  else some hint

def freshName (taken : List String) (count : Nat) (hint : String) : String :=
  (uniqueName? taken.contains count hint).getD ""

end BlockTally
