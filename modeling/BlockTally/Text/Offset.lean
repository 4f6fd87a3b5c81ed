/-! Places in a text, counted in UTF-8 bytes from its start. A place between the bytes of a character
or beyond the end is none. -/
namespace BlockTally.Text

def byteLength (cs : List Char) : Nat := cs.foldr (fun c n => c.utf8Size + n) 0

def dropBytes? : Nat → List Char → Option (List Char)
  | 0, cs => some cs
  | _ + 1, [] => none
  | n + 1, c :: cs => if c.utf8Size ≤ n + 1 then dropBytes? (n + 1 - c.utf8Size) cs else none

def takeBytes? : Nat → List Char → Option (List Char)
  | 0, _ => some []
  | _ + 1, [] => none
  | n + 1, c :: cs =>
    if c.utf8Size ≤ n + 1 then (takeBytes? (n + 1 - c.utf8Size) cs).map (c :: ·) else none

def slice? (cs : List Char) (start stop : Nat) : Option String :=
  if start ≤ stop then
    ((dropBytes? start cs).bind (takeBytes? (stop - start))).map String.ofList
  else none

def lineEnd? (cs : List Char) (offset : Nat) : Option Nat :=
  (dropBytes? offset cs).map fun rest => offset + byteLength (rest.takeWhile (· != '\n'))

/-! The table of lines. Only a line feed ends a line. -/

def lineStartsFrom : Nat → List Char → List Nat
  | _, [] => []
  | o, c :: cs =>
    if c = '\n' then (o + 1) :: lineStartsFrom (o + 1) cs else lineStartsFrom (o + c.utf8Size) cs

def lineStarts (cs : List Char) : Array Nat := (0 :: lineStartsFrom 0 cs).toArray

/-- How many entries satisfy `p`, where those that do stand in front of those that do not. -/
def partitionPoint (p : α → Bool) (xs : Array α) : Nat := go 0 xs.size (Nat.le_refl _)
where
  go (low high : Nat) (inside : high ≤ xs.size) : Nat :=
    if between : low < high then
      have : (low + high) / 2 < xs.size := by omega
      if p xs[(low + high) / 2] then go ((low + high) / 2 + 1) high inside
      else go low ((low + high) / 2) (by omega)
    else low

/-- A line and a column, both counted from one; the column counts bytes. -/
structure Position where
  line : Nat
  column : Nat
  deriving DecidableEq

def positionIn? (starts : Array Nat) (offset : Nat) : Option Position :=
  match partitionPoint (· ≤ offset) starts with
  | 0 => none
  | before + 1 => do
    let start ← starts[before]?
    if start ≤ offset then some ⟨before + 1, offset - start + 1⟩ else none

end BlockTally.Text
