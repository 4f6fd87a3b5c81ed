import BlockTally.Code.Registry
import BlockTally.Proofs.Code.Built

/-! The map from names to symbols, beside the tables that it tells the places of. A change of a
registry is followed by the change of its tables alone. Main statements: `addGlobal_tracks`,
`addFunction_tracks`, `functionFor_tracks` and `Agrees.giveBack`. -/
namespace BlockTally

namespace Module
variable {m : Module}

private theorem symbol?_addGlobal {g : Global} (free : m.symbol? g.name = none) (name : String) :
    symbol? { m with globals := m.globals ++ [g] } name =
      if g.name = name then some (.global ⟨m.globals.length⟩) else m.symbol? name := by
  obtain ⟨unused, -⟩ := Option.or_eq_none_iff.mp free
  rw [Option.map_eq_none_iff, globalNamed?, Option.map_eq_none_iff] at unused
  by_cases same : g.name = name
  · subst same
    simp [symbol?, globalNamed?, List.findIdx?_append, unused]
  · simp [symbol?, globalNamed?, functionNamed?, List.findIdx?_append, same]

private theorem symbol?_addFunction {f : Function} (free : m.symbol? f.name = none)
    (name : String) :
    symbol? { m with functions := m.functions ++ [f] } name =
      if f.name = name then some (.function ⟨m.functions.length⟩) else m.symbol? name := by
  obtain ⟨no_global, unused⟩ := Option.or_eq_none_iff.mp free
  rw [Option.map_eq_none_iff] at no_global
  rw [Option.map_eq_none_iff, functionNamed?, Option.map_eq_none_iff] at unused
  by_cases same : f.name = name
  · subst same
    have globals : globalNamed? { m with functions := m.functions ++ [f] } f.name = none := no_global
    rw [symbol?, globals]
    simp [functionNamed?, List.findIdx?_append, unused]
  · simp [symbol?, globalNamed?, functionNamed?, List.findIdx?_append, same]

private theorem function?_of_symbol? {name : String} {id : FuncId}
    (known : m.symbol? name = some (.function id)) : ∃ f, m.function? id = some f := by
  obtain ⟨-, named⟩ : m.globalNamed? name = none ∧ m.functionNamed? name = some id := by
    simpa [symbol?, Option.or_eq_some_iff] using known
  obtain ⟨index, found, rfl⟩ := Option.map_eq_some_iff.mp named
  obtain ⟨inside, -, -⟩ := List.findIdx?_eq_some_iff_getElem.mp found
  exact ⟨_, List.getElem?_eq_getElem inside⟩

theorem registerGlobal_eq_ok {m' : Module} {g : Global} {id : GlobalId} :
    Register.addGlobal g m = (.ok id, m') ↔ m.addGlobal g = .ok (id, m') :=
  Edit.attempt_eq_ok.trans Failure.mapError_eq_ok

theorem registerFunction_eq_ok {m' : Module} {f : Function} {id : FuncId} :
    Register.addFunction f m = (.ok id, m') ↔ m.addFunction f = .ok (id, m') :=
  Edit.attempt_eq_ok.trans Failure.mapError_eq_ok

/-- The function of a name and signature, as a change that leaves the module alone when it is
refused. -/
def requestFunction (name : String) (sig : Signature) : Edit Module EditError FuncId :=
  .attempt fun m => (m.functionFor name sig).mapError .refused

theorem requestFunction_eq_ok {m' : Module} {name : String} {sig : Signature} {id : FuncId} :
    requestFunction name sig m = (.ok id, m') ↔ m.functionFor name sig = .ok (id, m') :=
  Edit.attempt_eq_ok.trans Failure.mapError_eq_ok

end Module

namespace Registry
variable {r : Registry}

/-- The map tells what a search of the tables finds. -/
def Agrees (r : Registry) : Prop := ∀ name, r.symbol? name = r.module.symbol? name

theorem agrees_new (name : String) : (new name).Agrees := fun _ => Std.HashMap.getElem?_empty

private theorem contains_eq (r : Registry) (name : String) :
    r.symbols.contains name = (r.symbol? name).isSome :=
  Std.HashMap.contains_eq_isSome_getElem?

private theorem claim_taken {name : String} {symbol : Symbol} (taken : (r.symbol? name).isSome) :
    claim name symbol r = (.error (.refused (.duplicateSymbol name)), r) := by
  unfold claim
  rw [Edit.bind_of_ok Edit.run_read, contains_eq, if_pos taken]
  rfl

private theorem claim_free {name : String} {symbol : Symbol} (free : r.symbol? name = none) :
    claim name symbol r = (.ok (), { r with symbols := r.symbols.insert name symbol }) := by
  unfold claim
  rw [Edit.bind_of_ok Edit.run_read, contains_eq, if_neg (by simp [free])]
  rfl

private theorem symbol?_claimed (r : Registry) (m : Module) (name : String) (symbol : Symbol)
    (other : String) :
    symbol? { module := m, symbols := r.symbols.insert name symbol } other =
      if name = other then some symbol else r.symbol? other := by
  simp only [symbol?, Std.HashMap.getElem?_insert, beq_iff_eq]

/-- Where two changes lead, one of a registry and one of its tables. They have the same result and
do the same to the tables, and the map is left in agreement; a change that fails does nothing. -/
structure SameEffect (r : Registry) (now : Except (Failure ε) α × Registry)
    (now' : Except (Failure ε) α × Module) : Prop where
  result : now.1 = now'.1
  tables : now.2.module = now'.2
  agrees : now.2.Agrees
  failed : ∀ e, now.1 = .error e → now.2 = r

/-- While the map agrees, the change of the registry is the change of its tables. -/
def Tracks (edit : Edit Registry ε α) (edit' : Edit Module ε α) : Prop :=
  ∀ r : Registry, r.Agrees → SameEffect r (edit r) (edit' r.module)

theorem Tracks.map {edit : Edit Registry ε α} {edit' : Edit Module ε α} (tracks : Tracks edit edit')
    (f : α → β) : Tracks (do return f (← edit)) (do return f (← edit')) := by
  intro r agrees
  have same := tracks r agrees
  rcases ran : edit r with ⟨e | a, s⟩ <;> rcases ran' : edit' r.module with ⟨e' | a', m⟩ <;>
    rw [ran, ran'] at same <;> obtain ⟨⟨⟩, tables, agrees, failed⟩ := same
  · rw [Edit.bind_of_error ran, Edit.bind_of_error ran']
    exact ⟨rfl, tables, agrees, fun _ _ => failed e rfl⟩
  · rw [Edit.bind_of_ok ran, Edit.bind_of_ok ran']
    exact ⟨rfl, tables, agrees, nofun⟩

/-- A name is claimed and what it names is put behind the others of its kind. -/
private theorem tracks_claim (count : Module → Nat) (make : Nat → α) (symbol : α → Symbol)
    (push : Module → Module) (name : String)
    (grows : ∀ m : Module, m.symbol? name = none → ∀ other, (push m).symbol? other =
      if name = other then some (symbol (make (count m))) else m.symbol? other) :
    Tracks
      (do
        let id := make (← .read fun r => count r.module)
        claim name (symbol id)
        .change fun r => (id, { r with module := push r.module }))
      (.attempt fun m => Except.mapError .refused <|
        if (m.symbol? name).isSome then Except.error (.duplicateSymbol name)
        else Except.ok (make (count m), push m)) := by
  intro r agrees
  have same := agrees name
  rw [Edit.bind_of_ok Edit.run_read]
  simp only [Edit.attempt, ← same]
  cases found : r.symbol? name with
  | some taken =>
    rw [Edit.bind_of_error (claim_taken (by simp [found]))]
    exact ⟨rfl, rfl, agrees, fun _ _ => rfl⟩
  | none =>
    rw [Edit.bind_of_ok (claim_free found)]
    refine ⟨rfl, rfl, fun other => ?_, nofun⟩
    refine (symbol?_claimed r _ name _ other).trans ?_
    rw [agrees other]
    exact (grows r.module (same.symm.trans found) other).symm

theorem addGlobal_tracks (g : Global) : Tracks (addGlobal g) (Register.addGlobal g) :=
  tracks_claim (·.globals.length) GlobalId.mk .global
    (fun m => { m with globals := m.globals ++ [g] }) g.name fun _ => Module.symbol?_addGlobal

theorem addFunction_tracks (f : Function) : Tracks (addFunction f) (Register.addFunction f) :=
  tracks_claim (·.functions.length) FuncId.mk .function
    (fun m => { m with functions := m.functions ++ [f] }) f.name fun _ =>
      Module.symbol?_addFunction

private theorem run_lookup {id : FuncId} {f : Function} (here : r.module.function? id = some f) :
    (Edit.attempt fun r : Registry => do return (← Failure.present (r.module.function? id), r) :
      Edit Registry EditError Function) r = (.ok f, r) :=
  Edit.attempt_eq_ok.mpr (by rw [here]; rfl)

theorem functionFor_tracks (name : String) (sig : Signature) :
    Tracks (functionFor name sig) (Module.requestFunction name sig) := by
  intro r agrees
  unfold functionFor Module.requestFunction
  rw [Edit.bind_of_ok Edit.run_read]
  simp only [Edit.attempt, Module.functionFor, ← agrees name]
  cases found : r.symbol? name with
  | none =>
    have added := addFunction_tracks (.declare name sig) r agrees
    exact added
  | some symbol =>
    cases symbol with
    | global id => exact ⟨rfl, rfl, agrees, fun _ _ => rfl⟩
    | function id =>
      obtain ⟨f, here⟩ := Module.function?_of_symbol? ((agrees name).symm.trans found)
      simp only [here]
      rw [Edit.bind_of_ok (run_lookup here)]
      split <;> exact ⟨rfl, rfl, agrees, fun _ _ => rfl⟩

/-- Asking for a function that is there changes nothing. -/
theorem functionFor_of_found {name : String} {sig : Signature} {id : FuncId} {f : Function}
    (known : r.symbol? name = some (.function id)) (here : r.module.function? id = some f)
    (signed : f.signature = sig) : functionFor name sig r = (.ok id, r) := by
  unfold functionFor
  rw [Edit.bind_of_ok Edit.run_read, known]
  dsimp only
  rw [Edit.bind_of_ok (run_lookup here), if_pos signed]
  rfl

/-- A function that is lent leaves the names as they are. -/
theorem lend_eq_some {id : FuncId} {f : Function} {r' : Registry} :
    r.lend id = some (f, r') ↔ r.module.function? id = some f ∧
      r' = { r with module := r.module.setFunction id { name := "", ret := .void } } := by
  unfold lend
  cases r.module.function? id <;> simp [eq_comm]

theorem Agrees.giveBack {id : FuncId} {f g : Function} {r' : Registry} (agrees : r.Agrees)
    (lent : r.lend id = some (f, r')) (same : g.name = f.name) :
    ∃ r'', r'.giveBack id g = some r'' ∧ r''.module = r.module.setFunction id g ∧ r''.Agrees := by
  obtain ⟨found, rfl⟩ := lend_eq_some.mp lent
  have inside := (List.getElem?_eq_some_iff.mp found).1
  refine ⟨{ r with module := r.module.setFunction id g }, ?_, rfl, fun name => ?_⟩
  · simp [Registry.giveBack, Module.function?, Module.setFunction, inside]
  · have names := Module.names_setFunction found same
    have globals : (r.module.setFunction id g).globals.map (·.name) =
        r.module.globals.map (·.name) := rfl
    exact (agrees name).trans (Module.symbol?_congr globals names name).symm

end Registry

end BlockTally
