import BlockTally.Failure
import BlockTally.Wellformed

/-! Passes over a module and their ordered execution. -/
namespace BlockTally

inductive PassError where
  | missingEntry (name : String)
  | alreadyCounted (counter : String)
  | symbolConflict (name : String)
  | refusedEdit (e : EditError)
  | verificationFailed (pass : String) (defects : List Defect)
  deriving DecidableEq

def PassError.message : PassError → String
  | .missingEntry name => "count-bb requires a `" ++ name ++ "` function"
  | .alreadyCounted counter => "module is already instrumented: `@" ++ counter ++ "` exists"
  | .symbolConflict name => "`@" ++ name ++ "` clashes with another symbol count-bb needs"
  | .refusedEdit e => "IR error: " ++ e.message
  | .verificationFailed pass defects =>
    "module is invalid after `" ++ pass ++ "`: " ++ toString defects.length ++
      " error(s), first: " ++ (defects.head?.map Defect.message).getD ""

structure Pass where
  name : String
  run : Edit Module PassError Bool

namespace Pass

def verify (pass : Pass) : Edit Module PassError Unit := do
  let defects ← .read Module.defects
  if defects.isEmpty then return () else .refuse (.verificationFailed pass.name defects)

theorem verify_eq (pass : Pass) (m : Module) :
    pass.verify m = (if m.isValid then .ok ()
      else .error (.refused (.verificationFailed pass.name m.defects)), m) := by
  rw [verify, Edit.bind_of_ok (Edit.read_eq_ok.mpr ⟨rfl, rfl⟩), Module.isValid]
  split <;> rfl

/-- Runs passes in order up to the first that fails, and tells whether any changed the module.
With `verifyEach`, a pass that changed it must leave it valid. -/
def runAll (verifyEach : Bool) : List Pass → Edit Module PassError Bool
  | [] => return false
  | pass :: passes => do
    let changed ← pass.run
    if changed && verifyEach then pass.verify
    return (← runAll verifyEach passes) || changed

end Pass

end BlockTally
