import BlockTally.Proofs.Code.IndexedFunction

/-! The names of values. A function with its map is asked for parameters and values, and for other types
of them; its table alone answers in the same way. Main statement: `values_found`, that after any requests
the map finds for a name exactly what bears it, and that a new value gets the first free name its hint
allows. -/
namespace BlockTally

namespace Function
variable {f f' : Function}

/-- An entry keeps its name and its origin, whatever an operation does. -/
theorem Step.value?_kept (step : Step f f') {id : ValueId} {v : Value} (here : f.value? id = some v) :
    ∃ ty, f'.value? id = some { v with ty } := by
  have inside := (List.getElem?_eq_some_iff.mp here).1
  have grown : ∀ w, (f.values ++ [w])[id.index]? = some v := by
    intro w
    rw [List.getElem?_append_left inside]
    exact here
  cases step with
  | addParam | addValue => exact ⟨v.ty, grown _⟩
  | addNamedValue ok =>
    obtain ⟨-, -, rfl⟩ := addNamedValue_eq_ok.mp ok
    exact ⟨v.ty, grown _⟩
  | @retype _ other ty ok =>
    obtain ⟨w, found, rfl⟩ := Option.map_eq_some_iff.mp ok
    by_cases same : other.index = id.index
    · have values : w = v := by
        rw [value?, same] at found
        exact Option.some.inj (found.symm.trans here)
      exact ⟨ty, by simp [value?, same, inside, values]⟩
    · exact ⟨v.ty, by simpa only [value?, List.getElem?_set_ne same] using here⟩
  | addBlock | setBlock | setLinkage | setVariadic | setAttrs => exact ⟨v.ty, here⟩

end Function

namespace IndexedFunction

/-- A request to the table of values. -/
inductive Request where
  | addParam (ty : Ty) (name : String)
  | addValue (hint : String) (ty : Ty) (origin : Origin)
  | addNamedValue (name : String) (ty : Ty) (origin : Origin)
  | retype (id : ValueId) (ty : Ty)

/-- The value that is made, if one is, or the refusal; `none` if a search for a name has no end. -/
def Request.run : Request → IndexedFunction →
    Option (Except (Failure EditError) (Option ValueId) × IndexedFunction)
  | .addParam ty name, f => (f.addParam ty name).map fun (id, f) => (.ok (some id), f)
  | .addValue hint ty origin, f => (f.addValue hint ty origin).map fun (id, f) => (.ok (some id), f)
  | .addNamedValue name ty origin, f => some ((do
      return some (← IndexedFunction.addNamedValue name ty origin) : Edit _ _ _) f)
  | .retype id ty, f => some ((do
      IndexedFunction.retype id ty
      return none : Edit _ _ _) f)

def afterAll (f : IndexedFunction) (requests : List Request) : Option IndexedFunction :=
  requests.foldlM (fun f request => (request.run f).map (·.2)) f

/-- The request as the table alone answers it. -/
def Request.onTable : Request → Edit Function EditError (Option ValueId)
  | .addParam ty name => do
    return some (← .change (Function.addParam ty name))
  | .addValue hint ty origin => do
    return some (← .change (Function.addValue hint ty origin))
  | .addNamedValue name ty origin => do
    return some (← .attempt fun f => (f.addNamedValue name ty origin).mapError .refused)
  | .retype id ty => .attempt fun f => do
    return (none, ← Failure.present (f.retype id ty))

variable {f : IndexedFunction} {g g' : Function} {name : String} {ty : Ty} {origin : Origin}
  {id : ValueId}

private theorem onTable_refused {e : EditError}
    (refused : g.addNamedValue name ty origin = .error e) :
    (Request.addNamedValue name ty origin).onTable g = (.error (.refused e), g) :=
  Edit.bind_of_error (Edit.attempt_eq_error.mpr ⟨by rw [refused]; rfl, rfl⟩)

private theorem onTable_added (added : g.addNamedValue name ty origin = .ok (id, g')) :
    (Request.addNamedValue name ty origin).onTable g = (.ok (some id), g') :=
  Edit.bind_of_ok (Edit.attempt_eq_ok.mpr (Failure.mapError_eq_ok.mpr added))

private theorem onTable_missing (missing : g.retype id ty = none) :
    (Request.retype id ty).onTable g = (.error .outOfRange, g) := by
  rw [Request.onTable, Edit.attempt_eq_error, missing]
  exact ⟨rfl, rfl⟩

private theorem onTable_retyped (retyped : g.retype id ty = some g') :
    (Request.retype id ty).onTable g = (.ok none, g') := by
  rw [Request.onTable, Edit.attempt_eq_ok, retyped]
  rfl

/-- Every request ends. It answers what the table answers, and does nothing when it is refused. -/
theorem Request.shows (request : Request) (shows : f.Shows g) :
    ∃ f', request.run f = some ((request.onTable g).1, f') ∧ f'.Shows (request.onTable g).2 ∧
      ∀ e, (request.onTable g).1 = .error e → f' = f := by
  cases request with
  | addParam ty name =>
    obtain ⟨f', added, shows'⟩ := shows.addParam ty name
    exact ⟨f', by rw [run, added]; rfl, shows', nofun⟩
  | addValue hint ty origin =>
    obtain ⟨-, f', -, added, shows', -⟩ := shows.addValue hint ty origin
    exact ⟨f', by rw [run, added]; rfl, shows', nofun⟩
  | addNamedValue name ty origin =>
    rcases shows.addNamedValue name ty origin with ⟨e, here, there⟩ | ⟨id, g', f', here, there, shows'⟩
    · rw [onTable_refused here]
      exact ⟨f, congrArg some (Edit.bind_of_error there), shows, fun _ _ => rfl⟩
    · rw [onTable_added here]
      exact ⟨f', congrArg some (Edit.bind_of_ok there), shows', nofun⟩
  | retype id ty =>
    rcases shows.retype id ty with ⟨here, there⟩ | ⟨g', f', here, there, shows'⟩
    · rw [onTable_missing here]
      exact ⟨f, congrArg some (Edit.bind_of_error there), shows, fun _ _ => rfl⟩
    · rw [onTable_retyped here]
      exact ⟨f', congrArg some (Edit.bind_of_ok there), shows', nofun⟩

theorem Request.onTable_cases (request : Request) (g : Function) :
    (request.onTable g).2 = g ∨ g.Step (request.onTable g).2 := by
  cases request with
  | addParam ty name => exact .inr (.addParam g ty name)
  | addValue hint ty origin => exact .inr (.addValue g hint ty origin)
  | addNamedValue name ty origin =>
    cases here : g.addNamedValue name ty origin with
    | error e => exact .inl (by rw [onTable_refused here])
    | ok made => exact .inr (by rw [onTable_added here]; exact .addNamedValue here)
  | retype id ty =>
    cases here : g.retype id ty with
    | none => exact .inl (by rw [onTable_missing here])
    | some g' => exact .inr (by rw [onTable_retyped here]; exact .retype here)

/-- All requests end, with what the table alone comes to. -/
theorem Shows.afterAll (shows : f.Shows g) (requests : List Request) :
    ∃ f', f.afterAll requests = some f' ∧
      f'.Shows (Edit.afterAll (requests.map Request.onTable) g) := by
  induction requests generalizing f g with
  | nil => exact ⟨f, rfl, shows⟩
  | cons request requests ih =>
    obtain ⟨between, ran, shows', -⟩ := request.shows shows
    obtain ⟨f', rest, shows''⟩ := ih shows'
    refine ⟨f', ?_, shows''⟩
    rw [IndexedFunction.afterAll, List.foldlM_cons, ran]
    exact rest

private theorem built_afterAll (built : g.Built) (requests : List Request) :
    (Edit.afterAll (requests.map Request.onTable) g).Built := by
  refine Edit.afterAll_keeps (P := Function.Built) (fun step mem f built => ?_) built
  obtain ⟨request, -, rfl⟩ := List.mem_map.mp mem
  rcases request.onTable_cases f with same | step
  · rwa [same]
  · exact built.steps (.single step)

/-- What a function is made of at first. -/
theorem exists_origin {start : Option IndexedFunction}
    (origin : (∃ name ret, start = some (new name ret)) ∨ ∃ name sig, start = declare name sig) :
    ∃ f g, start = some f ∧ f.Shows g ∧ g.Built := by
  rcases origin with ⟨name, ret, rfl⟩ | ⟨name, sig, rfl⟩
  · exact ⟨_, _, rfl, shows_new name ret, name, ret, .refl⟩
  · obtain ⟨f, declared, shows⟩ := exists_declare name sig
    exact ⟨f, _, declared, shows, Function.declare_built name sig⟩

/-- A function that is new or declared is there, and is there after any requests, granted or refused,
so that no search for a name is without end. Then the map finds for a name exactly what bears it, no
two values share one, and each parameter knows its position. No request changes the name or the origin
of a value, and a refused one changes nothing. A new value gets the name that its hint gives, which is
found behind no more names than there are. -/
theorem values_found {start : Option IndexedFunction}
    (origin : (∃ name ret, start = some (new name ret)) ∨ ∃ name sig, start = declare name sig)
    (requests : List Request) :
    ∃ f, (do (← start).afterAll requests) = some f ∧
      (∀ name id, f.valueNamed? name = some id ↔
        ∃ v, f.function.value? id = some v ∧ v.name = name) ∧
      (f.function.values.map (·.name)).Nodup ∧
      (∀ k id, f.function.params[k]? = some id →
        ∃ v, f.function.value? id = some v ∧ v.origin = .parameter k) ∧
      (∀ request : Request, ∃ result f', request.run f = some (result, f') ∧
        (∀ id v, f.function.value? id = some v → ∃ ty, f'.function.value? id = some { v with ty }) ∧
        ∀ e, result = .error e → f' = f) ∧
      ∀ hint ty origin, ∃ name f',
        ChosenName (f.function.values.map (·.name)) f.function.values.length hint name ∧
        (Request.addValue hint ty origin).run f =
          some (.ok (some ⟨f.function.values.length⟩), f') ∧
        f'.function = { f.function with values := f.function.values ++ [⟨name, ty, origin⟩] } := by
  obtain ⟨f₀, g₀, rfl, shows₀, built₀⟩ := exists_origin origin
  obtain ⟨f, reached, table, agrees⟩ := shows₀.afterAll requests
  have built : f.function.Built := table ▸ built_afterAll built₀ requests
  have shows : f.Shows f.function := ⟨rfl, agrees⟩
  have coherent := built.coherent
  refine ⟨f, reached, fun name id => ?_, coherent.distinct, ?_, ?_, ?_⟩
  · rw [agrees name]
    exact Function.valueNamed?_eq_some_iff coherent.distinct
  · intro k id here
    obtain ⟨v, found, origin, -⟩ := coherent.param k id here
    exact ⟨v, found, origin⟩
  · intro request
    obtain ⟨f', ran, ⟨table', -⟩, refused⟩ := request.shows shows
    refine ⟨_, f', ran, fun id v here => ?_, refused⟩
    rw [table']
    rcases request.onTable_cases f.function with same | step
    · exact ⟨v.ty, by rwa [same]⟩
    · exact step.value?_kept here
  · intro hint ty origin
    obtain ⟨name, f', chosen, added, ⟨table', -⟩, made⟩ := shows.addValue hint ty origin
    exact ⟨name, f', chosen, by rw [Request.run, added]; rfl, table'.trans made⟩

/-- A name with a number is given before its hint, and a number before its turn. -/
def crossedRequests : List Request :=
  [.addNamedValue "x1" .i64 .instruction, .addValue "x" .i64 .instruction,
    .addNamedValue "x" .ptr .instruction, .addNamedValue "3" .ptr .instruction, .addParam .i64 ""]

def crossed : Function where
  name := "f"
  ret := .void
  params := [⟨3⟩]
  values := [⟨"x1", .i64, .instruction⟩, ⟨"x", .i64, .instruction⟩, ⟨"3", .ptr, .instruction⟩,
    ⟨"4", .i64, .parameter 0⟩]

theorem values_found_crossed : ∃ f, (new "f" .void).afterAll crossedRequests = some f ∧
    f.function = crossed ∧ f.valueNamed? "3" = some ⟨2⟩ ∧
    ∃ name f', ChosenName ["x1", "x", "3", "4"] 4 "x" name ∧
      (Request.addValue "x" .i64 .instruction).run f = some (.ok (some ⟨4⟩), f') := by
  obtain ⟨f, reached, found, -, -, -, added⟩ := values_found (.inl ⟨"f", .void, rfl⟩) crossedRequests
  obtain ⟨f', reached', table, -⟩ := (shows_new "f" .void).afterAll crossedRequests
  obtain rfl : f = f' := Option.some.inj (reached.symm.trans reached')
  have number : freshName ["x1", "x", "3"] 3 "" = "4" := by
    refine freshName_least (n := 4) ⟨by decide, by decide, fun k behind before => ?_⟩
    obtain rfl : k = 3 := by omega
    decide
  have made : f.function = crossed := by
    rw [table]
    change { crossed with
      values := crossed.values.take 3 ++ [⟨freshName ["x1", "x", "3"] 3 "", .i64, .parameter 0⟩] } = crossed
    rw [number]
    rfl
  obtain ⟨name, f', chosen, ran, -⟩ := added "x" .i64 .instruction
  rw [made] at chosen ran
  exact ⟨f, reached, made, (found "3" ⟨2⟩).mpr ⟨⟨"3", .ptr, .instruction⟩, by rw [made]; rfl, rfl⟩, name,
    f', chosen, ran⟩

end IndexedFunction

end BlockTally
