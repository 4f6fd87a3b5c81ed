import BlockTally.Code.Module
import Std.Data.HashMap

/-! Modules with a map from names to symbols. A name is claimed in the map before what it names is
put into its table, and a function that is being filled leaves one without a name in its place. -/
namespace BlockTally

structure Registry where
  module : Module
  symbols : Std.HashMap String Symbol := {}

namespace Registry

def new (name : String) : Registry := { module := { name } }

def symbol? (r : Registry) (name : String) : Option Symbol := r.symbols[name]?

def claim (name : String) (symbol : Symbol) : Edit Registry EditError Unit := do
  if ← .read (·.symbols.contains name) then .refuse (.duplicateSymbol name)
  else .change fun r => ((), { r with symbols := r.symbols.insert name symbol })

def addGlobal (g : Global) : Edit Registry EditError GlobalId := do
  let id : GlobalId := ⟨← .read (·.module.globals.length)⟩
  claim g.name (.global id)
  .change fun r => (id, { r with module := { r.module with globals := r.module.globals ++ [g] } })

def addFunction (f : Function) : Edit Registry EditError FuncId := do
  let id : FuncId := ⟨← .read (·.module.functions.length)⟩
  claim f.name (.function id)
  .change fun r =>
    (id, { r with module := { r.module with functions := r.module.functions ++ [f] } })

def functionFor (name : String) (sig : Signature) : Edit Registry EditError FuncId := do
  match ← .read (·.symbol? name) with
  | none => addFunction (.declare name sig)
  | some (.global _) => .refuse (.duplicateSymbol name)
  | some (.function id) =>
    let f ← .attempt fun r => return (← Failure.present (r.module.function? id), r)
    if f.signature = sig then return id
    else .refuse (.signatureMismatch name sig f.signature)

def lend (id : FuncId) (r : Registry) : Option (Function × Registry) :=
  (r.module.function? id).map fun f =>
    (f, { r with module := r.module.setFunction id { name := "", ret := .void } })

def giveBack (id : FuncId) (f : Function) (r : Registry) : Option Registry :=
  (r.module.function? id).map fun _ => { r with module := r.module.setFunction id f }

end Registry

/-- What a reader of a listing asks of the module that it fills. -/
class Register (M : Type) where
  symbol? : M → String → Option Symbol
  addGlobal : Global → Edit M EditError GlobalId
  addFunction : Function → Edit M EditError FuncId
  alter : (Module → Module) → M → M
  lend : FuncId → M → Option (Function × M)
  giveBack : FuncId → Function → M → Option M

instance : Register Registry where
  symbol? := Registry.symbol?
  addGlobal := Registry.addGlobal
  addFunction := Registry.addFunction
  alter f r := { r with module := f r.module }
  lend := Registry.lend
  giveBack := Registry.giveBack

@[default_instance]
instance : Register Module where
  symbol? := Module.symbol?
  addGlobal g := .attempt fun m => (m.addGlobal g).mapError .refused
  addFunction f := .attempt fun m => (m.addFunction f).mapError .refused
  alter f m := f m
  lend id m := (m.function? id).map fun f => (f, m)
  giveBack id f m := some (m.setFunction id f)

end BlockTally
