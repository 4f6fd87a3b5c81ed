import BlockTally.Tally.Setup

/-! Counting: each block adds one to the counter right before its terminator. -/
namespace BlockTally.Tally

def increment (c : Counter) : Insertion.Step Unit := do
  let slot : Operand := .global c.global
  let old ← Insertion.load c.ty slot "old.bb.count"
  let new ← Insertion.arith .add c.ty (.value old) (.int (c.ty.width?.getD 64) 1) "new.bb.count"
  Insertion.store c.ty (.value new) slot

def countBlock (c : Counter) (block : BlockId) : Edit Function EditError Unit :=
  Insertion.edit (Insertion.beforeTerminator · block) (increment c)

def countBlocks (c : Counter) : List BlockId → Edit Function EditError Unit
  | [] => return ()
  | block :: blocks => do
    countBlock c block
    countBlocks c blocks

def countFunction (c : Counter) : Edit Function EditError Bool := do
  let count ← .read (·.blocks.length)
  countBlocks c ((List.range count).map .mk)
  return count != 0

def countFunctions (c : Counter) : Edit (List Function) EditError Unit
  | [] => (.ok (), [])
  | f :: fs =>
    match countFunction c f with
    | (.error e, f) => (.error e, f :: fs)
    | (.ok _, f) => let (result, fs) := countFunctions c fs; (result, f :: fs)

def countModule (c : Counter) : Edit Module PassError Unit := fun m =>
  ((countFunctions c).because .refusedEdit).onPart (fun functions m => { m with functions })
    m.functions m

/-- The whole pass. Setting up is a change already, so that only a skipped module is unchanged. -/
def count (s : Settings) : Edit Module PassError Bool := do
  match ← setUp s with
  | none => return false
  | some c =>
    countModule c
    return true

def pass (s : Settings) : Pass := ⟨"count-bb", count s⟩

end BlockTally.Tally
