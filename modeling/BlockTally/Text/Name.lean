/-! How a listing spells the name of a global, a function, a value or a block: bare where the
reader takes it back as one word, in quotes otherwise. -/
namespace BlockTally.Text

def isNameChar (c : Char) : Bool :=
  c.isAlphanum || c == '-' || c == '$' || c == '.' || c == '_'

/-- A bare name is a number, or name characters of which the first is no digit. -/
def isPlain (name : String) : Bool :=
  match name.toList with
  | [] => false
  | c :: cs => (c :: cs).all Char.isDigit || (!c.isDigit && (c :: cs).all isNameChar)

def spelled (name : String) : String :=
  if isPlain name then name else "\"" ++ name ++ "\""

end BlockTally.Text
