import BlockTally.Code.EditError
import BlockTally.Code.Function
import BlockTally.Failure
import Std.Data.HashMap

/-! Functions with a map from names to values. A value is entered in the map and in the table at
once. A search for a name that has no end gives no function. -/
namespace BlockTally

structure IndexedFunction where
  function : Function
  valueNames : Std.HashMap String ValueId := {}

namespace IndexedFunction

def new (name : String) (ret : Ty) : IndexedFunction := { function := { name, ret } }

def valueNamed? (f : IndexedFunction) (name : String) : Option ValueId := f.valueNames[name]?

def insertValue (name : String) (ty : Ty) (origin : Origin) (f : IndexedFunction) :
    ValueId × IndexedFunction :=
  let id : ValueId := ⟨f.function.values.length⟩
  (id, { function := { f.function with values := f.function.values ++ [⟨name, ty, origin⟩] }
         valueNames := f.valueNames.insert name id })

def addValue (hint : String) (ty : Ty) (origin : Origin) (f : IndexedFunction) :
    Option (ValueId × IndexedFunction) :=
  (uniqueName? f.valueNames.contains f.function.values.length hint).map fun name =>
    f.insertValue name ty origin

def addNamedValue (name : String) (ty : Ty) (origin : Origin) :
    Edit IndexedFunction EditError ValueId := do
  if ← .read (·.valueNames.contains name) then
    .refuse (.duplicateValue (← .read (·.function.name)) name)
  else .change (insertValue name ty origin)

def addParam (ty : Ty) (name : String) (f : IndexedFunction) : Option (ValueId × IndexedFunction) :=
  (f.addValue name ty (.parameter f.function.params.length)).map fun (id, f) =>
    (id, { f with function := { f.function with params := f.function.params ++ [id] } })

def retype (id : ValueId) (ty : Ty) : Edit IndexedFunction EditError Unit :=
  .attempt fun f => return ((), { f with function := ← Failure.present (f.function.retype id ty) })

def declare (name : String) (sig : Signature) : Option IndexedFunction :=
  (sig.params.foldlM (fun f ty => (addParam ty "" f).map (·.2)) (new name sig.ret)).map fun f =>
    { f with function := { f.function with variadic := sig.variadic } }

end IndexedFunction

end BlockTally
