import BlockTally.Findings.Finding

/-! How many findings of each kind there are. -/
namespace BlockTally

structure Totals where
  functions : Nat := 0
  blocks : Nat := 0
  allocas : Nat := 0
  stores : Nat := 0
  loads : Nat := 0
  compares : Nat := 0
  directCalls : Nat := 0
  indirectCalls : Nat := 0
  callees : List (String × Nat) := []
  deriving DecidableEq

namespace Totals

def tally (name : String) : List (String × Nat) → List (String × Nat)
  | [] => [(name, 1)]
  | entry :: rest =>
    if entry.1 = name then (name, entry.2 + 1) :: rest else entry :: tally name rest

def record (t : Totals) : Finding → Totals
  | .function _ => { t with functions := t.functions + 1 }
  | .block _ => { t with blocks := t.blocks + 1 }
  | .alloca _ => { t with allocas := t.allocas + 1 }
  | .store _ => { t with stores := t.stores + 1 }
  | .load _ => { t with loads := t.loads + 1 }
  | .compare _ => { t with compares := t.compares + 1 }
  | .callee name =>
    { t with directCalls := t.directCalls + 1, callees := tally name t.callees }
  | .indirectCall _ => { t with indirectCalls := t.indirectCalls + 1 }

def extend (t : Totals) (findings : List Finding) : Totals := findings.foldl record t

def ofFindings (findings : List Finding) : Totals := extend {} findings

def callsTo (t : Totals) (name : String) : Nat := (t.callees.lookup name).getD 0

def distinctCallees (t : Totals) : Nat := t.callees.length

end Totals

end BlockTally
