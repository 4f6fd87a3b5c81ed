import BlockTally.Code.IndexedFunction
import BlockTally.Proofs.Code.Built

/-! The map from names to values, beside the table that it tells the places of. An operation on a
function with its map is the operation on its table, as long as the map agrees with the table, and it
leaves the map in agreement. Main statements: `Shows.addValue`, `Shows.addNamedValue`,
`exists_declare`. -/
namespace BlockTally

namespace Function
variable {f : Function}

private theorem valueNamed?_append {v : Value} (free : v.name ∉ f.values.map (·.name))
    (name : String) :
    valueNamed? { f with values := f.values ++ [v] } name =
      if v.name = name then some ⟨f.values.length⟩ else f.valueNamed? name := by
  by_cases same : v.name = name
  · subst same
    have unused : f.values.findIdx? (·.name == v.name) = none := by
      rw [List.findIdx?_eq_none_iff]
      intro w mem
      exact beq_eq_false_iff_ne.mpr fun same => free (List.mem_map.mpr ⟨w, mem, same⟩)
    simp [valueNamed?, List.findIdx?_append, unused]
  · simp [valueNamed?, List.findIdx?_append, same]

private theorem names_retype {f' : Function} {id : ValueId} {ty : Ty}
    (ok : f.retype id ty = some f') :
    f'.values.map (·.name) = f.values.map (·.name) := by
  obtain ⟨v, found, rfl⟩ := Option.map_eq_some_iff.mp ok
  obtain ⟨inside, here⟩ := List.getElem?_eq_some_iff.mp found
  apply List.ext_getElem?
  intro i
  by_cases same : id.index = i
  · subst same
    simp [inside, here]
  · simp [List.getElem?_set_ne same]

private theorem valueNamed?_congr {f' : Function}
    (names : f'.values.map (·.name) = f.values.map (·.name))
    (name : String) : f'.valueNamed? name = f.valueNamed? name := by
  have by_names : ∀ g : Function, g.valueNamed? name =
      ((g.values.map (·.name)).findIdx? (· == name)).map .mk := fun g => by
    rw [valueNamed?, List.findIdx?_map]
    rfl
  rw [by_names, by_names, names]

private theorem foldl_addParam_variadic (tys : List Ty) (f : Function) (variadic : Bool) :
    tys.foldl (fun f ty => (f.addParam ty "").2) { f with variadic } =
      { tys.foldl (fun f ty => (f.addParam ty "").2) f with variadic } := by
  induction tys generalizing f with
  | nil => rfl
  | cons ty tys ih => exact ih (f.addParam ty "").2

end Function

namespace IndexedFunction
variable {f : IndexedFunction} {g : Function} {name : String} {ty : Ty} {origin : Origin}

/-- The map tells what a search of the table finds. -/
def Agrees (f : IndexedFunction) : Prop := ∀ name, f.valueNamed? name = f.function.valueNamed? name

/-- The function is what is seen of it without its map, which agrees with it. -/
structure Shows (f : IndexedFunction) (g : Function) : Prop where
  function : f.function = g
  agrees : f.Agrees

theorem shows_new (name : String) (ret : Ty) : (new name ret).Shows { name, ret } :=
  ⟨rfl, fun _ => Std.HashMap.getElem?_empty⟩

theorem Agrees.contains (agrees : f.Agrees) :
    f.valueNames.contains = (f.function.values.map (·.name)).contains := by
  funext name
  have known : f.valueNames.contains name = (f.valueNamed? name).isSome :=
    Std.HashMap.contains_eq_isSome_getElem?
  rw [known, agrees name, Bool.eq_iff_iff, Function.valueNamed?_isSome, List.contains_iff_mem]

theorem Agrees.insertValue (agrees : f.Agrees) (free : name ∉ f.function.values.map (·.name)) :
    (f.insertValue name ty origin).2.Agrees := by
  intro other
  have inserted : (f.insertValue name ty origin).2.valueNamed? other =
      if name = other then some ⟨f.function.values.length⟩ else f.valueNamed? other := by
    simp only [IndexedFunction.insertValue, valueNamed?, Std.HashMap.getElem?_insert, beq_iff_eq]
  rw [inserted, agrees other]
  exact (Function.valueNamed?_append (v := ⟨name, ty, origin⟩) free other).symm

/-- The search for the name of a new value ends. -/
theorem Shows.addValue (shows : f.Shows g) (hint : String) (ty : Ty) (origin : Origin) :
    ∃ name f', ChosenName (g.values.map (·.name)) g.values.length hint name ∧
      f.addValue hint ty origin = some ((g.addValue hint ty origin).1, f') ∧
      f'.Shows (g.addValue hint ty origin).2 ∧
      (g.addValue hint ty origin).2 = { g with values := g.values ++ [⟨name, ty, origin⟩] } := by
  obtain ⟨rfl, agrees⟩ := shows
  obtain ⟨name, found, chosen⟩ :=
    uniqueName?_chosen (f.function.values.map (·.name)) f.function.values.length hint
  have fresh : freshName (f.function.values.map (·.name)) f.function.values.length hint = name := by
    rw [freshName, found, Option.getD_some]
  have free : name ∉ f.function.values.map (·.name) := by
    rw [← fresh]
    exact freshName_not_mem _ _ hint
  have table : (f.function.addValue hint ty origin).2 =
      { f.function with values := f.function.values ++ [⟨name, ty, origin⟩] } := by
    rw [Function.addValue, fresh]
  refine ⟨name, _, chosen, ?_, ⟨table.symm, agrees.insertValue free⟩, table⟩
  rw [IndexedFunction.addValue, agrees.contains, found, Option.map_some]
  rfl

theorem Shows.addParam (shows : f.Shows g) (ty : Ty) (name : String) :
    ∃ f', f.addParam ty name = some ((g.addParam ty name).1, f') ∧
      f'.Shows (g.addParam ty name).2 := by
  obtain ⟨rfl, agrees⟩ := shows
  obtain ⟨-, f', -, added, ⟨table, agrees'⟩, -⟩ :=
    Shows.addValue ⟨rfl, agrees⟩ name ty (.parameter f.function.params.length)
  have made : f.addParam ty name = some (⟨f.function.values.length⟩, { f' with
      function := { f'.function with
        params := f'.function.params ++ [⟨f.function.values.length⟩] } }) := by
    rw [IndexedFunction.addParam, added]
    rfl
  refine ⟨_, made, ?_, agrees'⟩
  rw [table]
  rfl

theorem Shows.addNamedValue (shows : f.Shows g) (name : String) (ty : Ty) (origin : Origin) :
    (∃ e, g.addNamedValue name ty origin = .error e ∧
      IndexedFunction.addNamedValue name ty origin f = (.error (.refused e), f)) ∨
    ∃ id g' f', g.addNamedValue name ty origin = .ok (id, g') ∧
      IndexedFunction.addNamedValue name ty origin f = (.ok id, f') ∧ f'.Shows g' := by
  obtain ⟨rfl, agrees⟩ := shows
  unfold IndexedFunction.addNamedValue Function.addNamedValue
  rw [Edit.bind_of_ok Edit.run_read, agrees.contains]
  by_cases mem : name ∈ f.function.values.map (·.name)
  · rw [if_pos (Function.valueNamed?_isSome.mpr mem), if_pos (List.contains_iff_mem.mpr mem)]
    exact .inl ⟨_, rfl, rfl⟩
  · rw [if_neg (mt Function.valueNamed?_isSome.mp mem), if_neg (mt List.contains_iff_mem.mp mem)]
    exact .inr ⟨_, _, _, rfl, rfl, rfl, agrees.insertValue mem⟩

theorem Shows.retype (shows : f.Shows g) (id : ValueId) (ty : Ty) :
    (g.retype id ty = none ∧ IndexedFunction.retype id ty f = (.error .outOfRange, f)) ∨
    ∃ g' f', g.retype id ty = some g' ∧ IndexedFunction.retype id ty f = (.ok (), f') ∧ f'.Shows g' := by
  obtain ⟨rfl, agrees⟩ := shows
  unfold IndexedFunction.retype
  cases found : f.function.retype id ty with
  | none => exact .inl ⟨rfl, Edit.attempt_eq_error.mpr ⟨by rw [found]; rfl, rfl⟩⟩
  | some g' =>
    refine .inr ⟨g', _, rfl, Edit.attempt_eq_ok.mpr (by rw [found]; rfl), rfl, fun name => ?_⟩
    exact (agrees name).trans (Function.valueNamed?_congr (Function.names_retype found) name).symm

/-- Declaring a function ends, with the function that is declared without a map. -/
theorem exists_declare (name : String) (sig : Signature) :
    ∃ f, declare name sig = some f ∧ f.Shows (.declare name sig) := by
  have params : ∀ (tys : List Ty) {f : IndexedFunction} {g : Function}, f.Shows g →
      ∃ f', tys.foldlM (fun f ty => (IndexedFunction.addParam ty "" f).map (·.2)) f = some f' ∧
        f'.Shows (tys.foldl (fun g ty => (g.addParam ty "").2) g) := by
    intro tys
    induction tys with
    | nil => exact fun shows => ⟨_, rfl, shows⟩
    | cons ty tys ih =>
      intro f g shows
      obtain ⟨f', added, shows'⟩ := shows.addParam ty ""
      obtain ⟨f'', rest, shows''⟩ := ih shows'
      exact ⟨f'', by rw [List.foldlM_cons, added]; exact rest, shows''⟩
  obtain ⟨f, found, table, agrees⟩ := params sig.params (shows_new name sig.ret)
  have made : declare name sig = some
      { f with function := { f.function with variadic := sig.variadic } } := by
    rw [declare, found]
    rfl
  refine ⟨_, made, ?_, agrees⟩
  rw [table]
  exact (Function.foldl_addParam_variadic sig.params { name, ret := sig.ret } sig.variadic).symm

end IndexedFunction

end BlockTally
