import BlockTally.Code.Insertion
import BlockTally.Code.Module
import BlockTally.Pass
import BlockTally.Tally.Settings

/-! What a module needs before its blocks are counted: the counter, the hook that reports it when
the program ends, and the call of the hook. Every check comes before the first change. -/
namespace BlockTally.Tally

structure Counter where
  global : GlobalId
  ty : Ty
  deriving DecidableEq

/-- The counter may be defined in several modules, which share one when they are linked. -/
def counterGlobal (name : String) : Global where
  name
  ty := .i64
  linkage := .common
  initial := some (.int 64 0)
  align := some 8

def callHook (hook : FuncId) : Edit Function EditError Unit := do
  match ← .read Function.entry? with
  | none => return ()
  | some block =>
    let site : CallSite := ⟨.void, .function hook, []⟩
    let _ ← Insertion.edit (fun f => .ok (.atStart f block)) (Insertion.call site "")

def inject (s : Settings) (entry : FuncId) : Edit Module EditError Counter := do
  let hook ← .attempt fun m => (m.functionFor s.hook .nullary).mapError .refused
  let global ← .attempt fun m => (m.addGlobal (counterGlobal s.counter)).mapError .refused
  Module.editFunction entry (callHook hook)
  return ⟨global, .i64⟩

/-- Adds the counter and the call of the hook; there is no counter to use where the module has it
already and the settings say to leave such a module alone. -/
def setUp (s : Settings) : Edit Module PassError (Option Counter) := do
  match ← .read (·.functionNamed? s.entry) with
  | none => .refuse (.missingEntry s.entry)
  | some entry =>
    if s.hook = s.counter || s.hook = s.entry then .refuse (.symbolConflict s.hook)
    else match ← .read (·.symbol? s.counter), s.onExisting with
      | some (.global _), .fail => .refuse (.alreadyCounted s.counter)
      | some (.global _), .skip => return none
      | some (.function _), _ => .refuse (.symbolConflict s.counter)
      | none, _ => return some (← (inject s entry).because .refusedEdit)

end BlockTally.Tally
