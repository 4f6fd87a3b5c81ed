import BlockTally.Proofs.Code.Registry
import BlockTally.Proofs.Listing.Registered

/-! The names of symbols. A registry answers requests for symbols, and grants or refuses each. The
tables of its module answer in the same way, so that what a granted request does is told of them; the
map is carried along. Main statement: `symbols_found`, that after any requests the map finds for a name
exactly what bears it. -/
namespace BlockTally

/-- A global or a function, as a symbol stands for it. -/
inductive Item where
  | global (g : Global)
  | function (f : Function)

def Item.name : Item → String
  | .global g => g.name
  | .function f => f.name

namespace Module

def item? (m : Module) : Symbol → Option Item
  | .global id => (m.global? id).map .global
  | .function id => (m.function? id).map .function

variable {m m' : Module}

private theorem functionFor_eq_ok {name : String} {sig : Signature} {id : FuncId} :
    m.functionFor name sig = .ok (id, m') ↔
      (m.symbol? name = none ∧ id = ⟨m.functions.length⟩ ∧
        m' = { m with functions := m.functions ++ [.declare name sig] }) ∨
      (m' = m ∧ m.symbol? name = some (.function id) ∧
        ∃ f, m.function? id = some f ∧ f.signature = sig) := by
  unfold functionFor
  cases found : m.symbol? name with
  | none => simp [addFunction_eq_ok, ← symbol?_isSome, Function.declare_name, found]
  | some symbol =>
    cases symbol with
    | global known => simp
    | function known =>
      cases here : m.function? known with
      | none =>
        simp only [here, reduceCtorEq, false_and, false_or, false_iff, not_and]
        rintro - ⟨⟩ ⟨f, there, -⟩
        cases here.symm.trans there
      | some f =>
        simp only [here]
        split
        · next same =>
          constructor
          · rintro ⟨⟩
            exact .inr ⟨rfl, rfl, f, here, same⟩
          · rintro (⟨⟨⟩, -⟩ | ⟨rfl, ⟨⟩, -⟩)
            rfl
        · next other =>
          constructor
          · rintro ⟨⟩
          · rintro (⟨⟨⟩, -⟩ | ⟨-, ⟨⟩, f', there, same⟩)
            obtain rfl := Option.some.inj (here.symm.trans there)
            exact absurd same other

/-- The function of a name and signature has them, and is found by its name. -/
theorem functionFor_found {name : String} {sig : Signature} {id : FuncId}
    (distinct : m.symbolNames.Nodup) (ok : m.functionFor name sig = .ok (id, m')) :
    m'.symbol? name = some (.function id) ∧
      ∃ f, m'.function? id = some f ∧ f.name = name ∧ f.signature = sig := by
  rcases functionFor_eq_ok.mp ok with ⟨free, rfl, rfl⟩ | ⟨rfl, found, f, here, same⟩
  · have declared : function? { m with functions := m.functions ++ [.declare name sig] }
        ⟨m.functions.length⟩ = some (.declare name sig) := List.getElem?_concat_length
    have unused : (Function.declare name sig).name ∉ m.symbolNames := by
      rw [Function.declare_name, ← symbol?_isSome, free]
      exact Bool.false_ne_true
    have named := (symbol?_eq_function_iff (distinct_addFunction distinct unused)).mpr
      ⟨_, declared, Function.declare_name name sig⟩
    exact ⟨named, _, declared, Function.declare_name name sig, Function.declare_signature name sig⟩
  · obtain ⟨f', there, bears⟩ := (symbol?_eq_function_iff distinct).mp found
    obtain rfl := Option.some.inj (here.symm.trans there)
    exact ⟨found, f, here, bears, same⟩

/-- What granting a request does: the symbol stands for a new item of a name that was free, or for
one that is there. -/
inductive Granted (m : Module) : Symbol → Item → Module → Prop
  | addedGlobal {g : Global} (free : g.name ∉ m.symbolNames) :
      Granted m (.global ⟨m.globals.length⟩) (.global g) { m with globals := m.globals ++ [g] }
  | addedFunction {f : Function} (free : f.name ∉ m.symbolNames) :
      Granted m (.function ⟨m.functions.length⟩) (.function f)
        { m with functions := m.functions ++ [f] }
  | found {symbol : Symbol} {item : Item} (stands : m.item? symbol = some item) :
      Granted m symbol item m

section
variable {symbol : Symbol} {item : Item}

theorem Granted.distinct (granted : Granted m symbol item m') (distinct : m.symbolNames.Nodup) :
    m'.symbolNames.Nodup := by
  cases granted with
  | addedGlobal free => exact distinct_addGlobal distinct free
  | addedFunction free => exact distinct_addFunction distinct free
  | found => exact distinct

/-- The symbol stands for the item from now on. -/
theorem Granted.stands (granted : Granted m symbol item m') : m'.item? symbol = some item := by
  cases granted with
  | addedGlobal => simp [item?, global?]
  | addedFunction => simp [item?, function?]
  | found stands => exact stands

/-- What stood for an item before stands for it still. -/
theorem Granted.kept (granted : Granted m symbol item m') {other : Symbol} {old : Item}
    (stands : m.item? other = some old) : m'.item? other = some old := by
  cases granted with
  | @addedGlobal g free =>
    cases other with
    | global id =>
      obtain ⟨g', here, rfl⟩ := Option.map_eq_some_iff.mp stands
      have inside := (List.getElem?_eq_some_iff.mp here).1
      rw [item?, global?, List.getElem?_append_left inside]
      exact stands
    | function id => exact stands
  | @addedFunction f free =>
    cases other with
    | global id => exact stands
    | function id =>
      obtain ⟨f', here, rfl⟩ := Option.map_eq_some_iff.mp stands
      have inside := (List.getElem?_eq_some_iff.mp here).1
      rw [item?, function?, List.getElem?_append_left inside]
      exact stands
  | found => exact stands

end

end Module

namespace Registry

/-- A request for a symbol: a new one, or the function of a name and signature. -/
inductive Request where
  | addGlobal (g : Global)
  | addFunction (f : Function)
  | functionFor (name : String) (sig : Signature)

def Request.name : Request → String
  | .addGlobal g => g.name
  | .addFunction f => f.name
  | .functionFor name _ => name

def Request.run : Request → Edit Registry EditError Symbol
  | .addGlobal g => do return .global (← Registry.addGlobal g)
  | .addFunction f => do return .function (← Registry.addFunction f)
  | .functionFor name sig => do return .function (← Registry.functionFor name sig)

def afterAll (r : Registry) (requests : List Request) : Registry :=
  Edit.afterAll (requests.map Request.run) r

/-- The request as the tables alone answer it. -/
def Request.onTables : Request → Edit Module EditError Symbol
  | .addGlobal g => do return .global (← Register.addGlobal g)
  | .addFunction f => do return .function (← Register.addFunction f)
  | .functionFor name sig => do return .function (← Module.requestFunction name sig)

theorem Request.tracks (request : Request) : Tracks request.run request.onTables := by
  cases request with
  | addGlobal g => exact (addGlobal_tracks g).map Symbol.global
  | addFunction f => exact (addFunction_tracks f).map Symbol.function
  | functionFor name sig => exact (functionFor_tracks name sig).map Symbol.function

variable {m m' : Module} {r r' : Registry} {request : Request} {symbol : Symbol} {item : Item}

theorem Request.granted (distinct : m.symbolNames.Nodup)
    (ok : request.onTables m = (.ok symbol, m')) :
    ∃ item, Module.Granted m symbol item m' ∧ item.name = request.name := by
  cases request with
  | addGlobal g =>
    obtain ⟨id, _, added, ⟨⟩⟩ := Edit.bind_eq_ok.mp ok
    obtain ⟨free, rfl, rfl⟩ := Module.addGlobal_eq_ok.mp (Module.registerGlobal_eq_ok.mp added)
    exact ⟨.global g, .addedGlobal free, rfl⟩
  | addFunction f =>
    obtain ⟨id, _, added, ⟨⟩⟩ := Edit.bind_eq_ok.mp ok
    obtain ⟨free, rfl, rfl⟩ := Module.addFunction_eq_ok.mp (Module.registerFunction_eq_ok.mp added)
    exact ⟨.function f, .addedFunction free, rfl⟩
  | functionFor name sig =>
    obtain ⟨id, _, answered, ⟨⟩⟩ := Edit.bind_eq_ok.mp ok
    rcases Module.functionFor_eq_ok.mp (Module.requestFunction_eq_ok.mp answered) with
      ⟨free, rfl, rfl⟩ | ⟨rfl, found, -⟩
    · refine ⟨.function (.declare name sig), .addedFunction ?_, Function.declare_name name sig⟩
      rw [Function.declare_name, ← Module.symbol?_isSome, free]
      exact Bool.false_ne_true
    · obtain ⟨f, here, bears⟩ := (Module.symbol?_eq_function_iff distinct).mp found
      exact ⟨.function f, .found (congrArg (Option.map Item.function) here), bears⟩

theorem Request.refused {e : Failure EditError} (failed : request.onTables m = (.error e, m')) :
    ∃ cause, e = .refused cause := by
  have attempted : ∀ {α : Type} {op : Module → Except EditError (α × Module)} {f : α → Symbol},
      ((do return f (← Edit.attempt fun m => (op m).mapError .refused)) :
        Edit Module EditError Symbol) m = (.error e, m') → ∃ cause, e = .refused cause := by
    intro α op f failed
    rcases Edit.bind_eq_error.mp failed with refused | ⟨_, _, -, done⟩
    · obtain ⟨here, -⟩ := Edit.attempt_eq_error.mp refused
      cases ran : op m with
      | ok => rw [ran] at here; cases here
      | error cause => rw [ran] at here; cases here; exact ⟨cause, rfl⟩
    · cases done
  cases request <;> exact attempted failed

/-- The map agrees with the tables, in which no two symbols share a name. -/
structure Sound (r : Registry) : Prop where
  agrees : r.Agrees
  distinct : r.module.symbolNames.Nodup

theorem Sound.granted (sound : r.Sound) (ok : request.run r = (.ok symbol, r')) :
    r'.Sound ∧ ∃ item, Module.Granted r.module symbol item r'.module ∧ item.name = request.name := by
  have same := request.tracks r sound.agrees
  rw [ok] at same
  have onTables : request.onTables r.module = (.ok symbol, r'.module) :=
    Prod.ext same.result.symm same.tables.symm
  obtain ⟨item, granted, bears⟩ := Request.granted sound.distinct onTables
  exact ⟨⟨same.agrees, granted.distinct sound.distinct⟩, item, granted, bears⟩

/-- A refused request leaves the registry alone. -/
theorem Sound.refused (sound : r.Sound) {e : Failure EditError}
    (failed : request.run r = (.error e, r')) : r' = r ∧ ∃ cause, e = .refused cause := by
  have same := request.tracks r sound.agrees
  rw [failed] at same
  have onTables : request.onTables r.module = (.error e, _) := Prod.ext same.result.symm rfl
  exact ⟨same.failed e rfl, Request.refused onTables⟩

theorem Sound.afterAll (sound : r.Sound) (requests : List Request) : (r.afterAll requests).Sound := by
  refine Edit.afterAll_keeps (P := Sound) (fun step mem r sound => ?_) sound
  obtain ⟨request, -, rfl⟩ := List.mem_map.mp mem
  rcases answered : request.run r with ⟨e | symbol, r'⟩
  · exact (sound.refused answered).1 ▸ sound
  · exact (sound.granted answered).1

/-- The tables come to be what the same requests make of the tables alone. -/
theorem Sound.afterAll_tables (sound : r.Sound) (requests : List Request) :
    (r.afterAll requests).module = Edit.afterAll (requests.map Request.onTables) r.module := by
  induction requests generalizing r with
  | nil => rfl
  | cons request requests ih =>
    have next : (request.run r).2.Sound := sound.afterAll [request]
    refine (ih next).trans ?_
    rw [(request.tracks r sound.agrees).tables]
    rfl

theorem Sound.item?_afterAll (sound : r.Sound) (stands : r.module.item? symbol = some item)
    (requests : List Request) : (r.afterAll requests).module.item? symbol = some item := by
  refine (Edit.afterAll_keeps
    (P := fun r : Registry => r.Sound ∧ r.module.item? symbol = some item)
    (fun step mem r known => ?_) ⟨sound, stands⟩).2
  obtain ⟨request, -, rfl⟩ := List.mem_map.mp mem
  rcases answered : request.run r with ⟨e | other, r'⟩
  · exact (known.1.refused answered).1 ▸ known
  · obtain ⟨sound, _, granted, -⟩ := known.1.granted answered
    exact ⟨sound, granted.kept known.2⟩

/-- The function of a name and signature has them, and is found again. -/
theorem Sound.functionFor_again (sound : r.Sound) {name : String} {sig : Signature} {id : FuncId}
    (ok : functionFor name sig r = (.ok id, r')) :
    (∃ f, r'.module.function? id = some f ∧ f.name = name ∧ f.signature = sig) ∧
      functionFor name sig r' = (.ok id, r') := by
  have same := functionFor_tracks name sig r sound.agrees
  rw [ok] at same
  obtain ⟨known, f, here, bears, signed⟩ := Module.functionFor_found sound.distinct
    (Module.requestFunction_eq_ok.mp (Prod.ext same.result.symm same.tables.symm))
  exact ⟨⟨f, here, bears, signed⟩,
    functionFor_of_found ((same.agrees name).trans known) here signed⟩

private theorem sound_of_origin (origin : (∃ name, r = new name) ∨
    ∃ name text, Listing.parseRegistry name text = .ok r) : r.Sound := by
  rcases origin with ⟨name, rfl⟩ | ⟨name, text, read⟩
  · exact ⟨agrees_new name, .nil⟩
  · obtain ⟨module, agrees⟩ := Listing.parseRegistry_agrees read
    exact ⟨agrees, (Listing.parse_read module).1.coherent.distinct⟩

/-- In a registry that is new or was read from a text, and after any requests, granted or refused: the
map finds for a name exactly what bears it, and no two symbols share one. A request never names a
place that a table does not have, and a refused one changes nothing. A granted one gives a symbol that
stands for an item of the name, whatever is requested later. The function of a name and signature has
both, and asking for it again gives it without a change. -/
theorem symbols_found {start r : Registry} {requests : List Request}
    (origin : (∃ name, start = new name) ∨ ∃ name text, Listing.parseRegistry name text = .ok start)
    (reached : start.afterAll requests = r) :
    (∀ name id, r.symbol? name = some (.global id) ↔
      ∃ g, r.module.global? id = some g ∧ g.name = name) ∧
    (∀ name id, r.symbol? name = some (.function id) ↔
      ∃ f, r.module.function? id = some f ∧ f.name = name) ∧
    (r.module.globals.map (·.name) ++ r.module.functions.map (·.name)).Nodup ∧
    (∀ (request : Request) e r', request.run r = (.error e, r') →
      r' = r ∧ ∃ cause, e = .refused cause) ∧
    (∀ (request : Request) symbol r', request.run r = (.ok symbol, r') → ∃ item,
      item.name = request.name ∧ ∀ more, (r'.afterAll more).module.item? symbol = some item) ∧
    ∀ name sig symbol r', (Request.functionFor name sig).run r = (.ok symbol, r') →
      (∃ id f, symbol = .function id ∧ r'.module.function? id = some f ∧ f.name = name ∧
        f.signature = sig) ∧
      (Request.functionFor name sig).run r' = (.ok symbol, r') := by
  have sound : r.Sound := by
    rw [← reached]
    exact (sound_of_origin origin).afterAll requests
  refine ⟨fun name id => ?_, fun name id => ?_, sound.distinct, ?_, ?_, ?_⟩
  · rw [sound.agrees name]
    exact Module.symbol?_eq_global_iff sound.distinct
  · rw [sound.agrees name]
    exact Module.symbol?_eq_function_iff sound.distinct
  · exact fun request e r' refused => sound.refused refused
  · intro request symbol r' answered
    obtain ⟨sound', item, granted, bears⟩ := sound.granted answered
    exact ⟨item, bears, sound'.item?_afterAll granted.stands⟩
  · intro name sig symbol r' answered
    obtain ⟨id, _, found, ⟨⟩⟩ := Edit.bind_eq_ok.mp answered
    obtain ⟨⟨f, here, bears, signed⟩, again⟩ := sound.functionFor_again found
    exact ⟨⟨id, f, rfl, here, bears, signed⟩, Edit.bind_eq_ok.mpr ⟨id, r', again, rfl⟩⟩

/-- Between two requests for the hook, a global of its name and a function of another signature are
refused. -/
def hookRequests : List Request :=
  [.functionFor "hook" .nullary, .addGlobal { name := "hook", ty := .i64 },
    .functionFor "hook" ⟨.i64, [.ptr], false⟩, .addGlobal { name := "count", ty := .i64 },
    .functionFor "hook" .nullary]

def hooked : Registry := (new "m").afterAll hookRequests

private theorem hooked_tables : hooked.module = {
    name := "m"
    globals := [{ name := "count", ty := .i64 }]
    functions := [.declare "hook" .nullary] } := by
  rw [hooked, (sound_of_origin (.inl ⟨"m", rfl⟩)).afterAll_tables]
  decide

theorem symbols_found_hooked : hooked.symbol? "hook" = some (.function ⟨0⟩) ∧
    (Request.addGlobal { name := "hook", ty := .i64 }).run hooked =
      (.error (.refused (.duplicateSymbol "hook")), hooked) ∧
    ∃ r, (Request.functionFor "hook" .nullary).run hooked = (.ok (.function ⟨0⟩), r) ∧
      (Request.functionFor "hook" .nullary).run r = (.ok (.function ⟨0⟩), r) := by
  obtain ⟨-, functions, -, refused, -, again⟩ :=
    symbols_found (.inl ⟨"m", rfl⟩) (show (new "m").afterAll hookRequests = hooked from rfl)
  have known : hooked.symbol? "hook" = some (.function ⟨0⟩) :=
    (functions "hook" ⟨0⟩).mpr ⟨.declare "hook" .nullary, by rw [hooked_tables]; rfl, rfl⟩
  have sound : hooked.Sound := (sound_of_origin (.inl ⟨"m", rfl⟩)).afterAll hookRequests
  have taken : ((Request.addGlobal { name := "hook", ty := .i64 }).run hooked).1 =
      .error (.refused (.duplicateSymbol "hook")) := by
    rw [(Request.tracks _ hooked sound.agrees).result, hooked_tables]
    rfl
  have asked : ((Request.functionFor "hook" .nullary).run hooked).1 = .ok (.function ⟨0⟩) := by
    rw [(Request.tracks _ hooked sound.agrees).result, hooked_tables]
    rfl
  refine ⟨known, Prod.ext taken (refused _ _ _ (Prod.ext taken rfl)).1, _, Prod.ext asked rfl, ?_⟩
  exact (again "hook" .nullary _ _ (Prod.ext asked rfl)).2

end Registry

end BlockTally
