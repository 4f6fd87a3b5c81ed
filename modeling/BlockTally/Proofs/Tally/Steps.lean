import BlockTally.Proofs.Listing.Enlarged
import BlockTally.Proofs.Listing.Headed
import BlockTally.Proofs.Tally.Effect

/-! A module that is counted, as a whole. Counting works through the operations on functions and modules
alone, gives no value a name with a quote, and leaves every entry of a table at its place. Main
statements: `count_enriched`, `count_parts`. -/
namespace BlockTally
open Listing

/-- Made through operations on a function that put no quote into the name of a value. -/
structure Function.Enriched (f g : Function) : Prop where
  steps : f.Steps g
  names : (∀ v ∈ f.values, Unquoted v.name) → ∀ v ∈ g.values, Unquoted v.name

theorem Function.Enriched.refl (f : Function) : f.Enriched f := ⟨.refl, id⟩

theorem Function.Enriched.trans {f g h : Function} (first : f.Enriched g) (second : g.Enriched h) :
    f.Enriched h := ⟨Relation.ReflTransGen.trans first.steps second.steps, second.names ∘ first.names⟩

namespace Insertion

/-- A step of building that enriches the function. -/
def Enriches (step : Step α) : Prop :=
  ∀ s a s', step s = (.ok a, s') → s.function.Enriched s'.function

theorem Enriches.bind {step : Step α} {next : α → Step β} (first : Enriches step)
    (rest : ∀ a, Enriches (next a)) : Enriches (step >>= next) := by
  intro s b s' ok
  obtain ⟨a, between, here, there⟩ := Edit.bind_eq_ok.mp ok
  exact (first s a between here).trans (rest a between b s' there)

private theorem enriches_pure (a : α) : Enriches (pure a : Step α) := by
  intro s b s' ok
  obtain ⟨-, rfl⟩ := Edit.pure_eq_ok.mp ok
  exact .refl _

private theorem enriches_insert (inst : Instruction) : Enriches (insert inst) := by
  intro s u s' ok
  have built := Edit.attempt_eq_ok.mp ok
  simp only [Failure.bind_eq_ok] at built
  obtain ⟨b, -, b', -, made⟩ := built
  cases made
  exact ⟨.single (.setBlock _ _ _), id⟩

private theorem enriches_define (op : Operation) {hint : String} (unquoted : Unquoted hint) :
    Enriches (define op hint) := by
  refine Enriches.bind ?_ fun id => (enriches_insert _).bind fun _ => enriches_pure id
  intro s id s' ok
  obtain ⟨-, rfl⟩ := Edit.change_eq_ok.mp ok
  refine ⟨.single (.addValue _ hint _ _), fun names v mem => ?_⟩
  rcases List.mem_append.mp mem with old | new
  · exact names v old
  · rw [List.mem_singleton.mp new]
    exact unquoted_freshName unquoted

private theorem edit_enriched {start : Function → Except (Failure EditError) Insertion}
    {step : Step α} {f f' : Function} {a : α} (starts : ∀ s, start f = .ok s → s.function = f)
    (enriches : Enriches step) (ok : edit start step f = (.ok a, f')) : f.Enriched f' := by
  obtain ⟨s, s', began, run, rfl⟩ := edit_eq_ok.mp ok
  have enriched := enriches s a s' run
  rwa [starts s began] at enriched

end Insertion

/-- What is kept of a module: it is made through its operations, and no value has a name with a
quote. -/
structure Module.Enriched (m m' : Module) : Prop where
  built : m.Built → m'.Built
  names : (∀ f ∈ m.functions, ∀ v ∈ f.values, Unquoted v.name) →
    ∀ f ∈ m'.functions, ∀ v ∈ f.values, Unquoted v.name

namespace Module
variable {m m' m'' : Module}

theorem Enriched.refl (m : Module) : m.Enriched m := ⟨id, id⟩

theorem Enriched.trans (first : m.Enriched m') (second : m'.Enriched m'') : m.Enriched m'' :=
  ⟨second.built ∘ first.built, second.names ∘ first.names⟩

private theorem functionFor_enriched {name : String} {id : FuncId}
    (ok : m.functionFor name .nullary = .ok (id, m')) : m.Enriched m' := by
  unfold functionFor at ok
  split at ok
  · refine ⟨fun built => built.addFunction (Function.declare_built _ _) ok, fun names f mem => ?_⟩
    obtain ⟨-, -, rfl⟩ := addFunction_eq_ok.mp ok
    rcases List.mem_append.mp mem with old | new
    · exact names f old
    · rw [List.mem_singleton.mp new]
      exact fun v none => absurd none List.not_mem_nil
  · cases ok
  · split at ok
    · cases ok
    · split at ok
      · cases ok
        exact .refl m
      · cases ok

private theorem addGlobal_enriched {g : Global} {id : GlobalId}
    (ok : m.addGlobal g = .ok (id, m')) :
    m.Enriched m' := by
  refine ⟨fun built => built.addGlobal ok, fun names => ?_⟩
  obtain ⟨-, -, rfl⟩ := addGlobal_eq_ok.mp ok
  exact names

private theorem setFunction_enriched {id : FuncId} {f f' : Function}
    (found : m.function? id = some f)
    (enriched : f.Enriched f') : m.Enriched (m.setFunction id f') := by
  refine ⟨fun built => built.setFunction found enriched.steps, fun names g mem => ?_⟩
  rcases List.mem_or_eq_of_mem_set mem with old | rfl
  · exact names g old
  · exact enriched.names (names f (List.mem_of_getElem? found))

/-- Every function is enriched in its place. -/
theorem functions_enriched {functions : List Function}
    (each : List.Forall₂ Function.Enriched m.functions functions) :
    m.Enriched { m with functions } := by
  suffices from_here : ∀ done later later', List.Forall₂ Function.Enriched later later' →
      Enriched { m with functions := done ++ later } { m with functions := done ++ later' } from
    from_here [] _ _ each
  intro done later later' related
  induction related generalizing done with
  | nil => exact .refl _
  | @cons f f' later later' first _ ih =>
    have found : Module.function? { m with functions := done ++ f :: later } ⟨done.length⟩ = some f := by
      simp [Module.function?]
    have next : Enriched { m with functions := done ++ f :: later }
        { m with functions := done ++ f' :: later } := by
      simpa [Module.setFunction] using setFunction_enriched found first
    have rest := ih (done ++ [f'])
    rw [List.append_assoc, List.append_assoc] at rest
    exact next.trans rest

end Module

namespace Tally
variable {s : Settings} {c : Counter} {f f' : Function} {m m' : Module}

private theorem countBlock_enriched {block : BlockId} (ok : countBlock c block f = (.ok u, f')) :
    f.Enriched f' := by
  refine Insertion.edit_enriched (fun s began => ?_) ?_ ok
  · simp only [Insertion.beforeTerminator, Failure.bind_eq_ok] at began
    obtain ⟨b, -, began⟩ := began
    split at began <;> cases began
    rfl
  · exact (Insertion.enriches_define _ (by decide)).bind fun old =>
      (Insertion.enriches_define _ (by decide)).bind fun new => Insertion.enriches_insert _

private theorem countBlocks_enriched {blocks : List BlockId}
    (ok : countBlocks c blocks f = (.ok u, f')) :
    f.Enriched f' := by
  induction blocks generalizing f with
  | nil =>
    obtain ⟨-, rfl⟩ := Edit.pure_eq_ok.mp ok
    exact .refl _
  | cons block blocks ih =>
    obtain ⟨_, between, first, rest⟩ := Edit.bind_eq_ok.mp ok
    exact (countBlock_enriched first).trans (ih rest)

private theorem countFunctions_enriched {fs fs' : List Function}
    (ok : countFunctions c fs = (.ok u, fs')) :
    List.Forall₂ Function.Enriched fs fs' := by
  induction fs generalizing fs' with
  | nil =>
    cases ok
    exact .nil
  | cons f fs ih =>
    unfold countFunctions at ok
    rcases first : countFunction c f with ⟨_ | changed, f'⟩
    · simp [first] at ok
    · rcases rest : countFunctions c fs with ⟨result, more⟩
      simp only [first, rest, Prod.mk.injEq] at ok
      obtain ⟨rfl, rfl⟩ := ok
      simp only [countFunction, Edit.bind_eq_ok, Edit.read_eq_ok, Edit.pure_eq_ok] at first
      obtain ⟨_, _, ⟨rfl, rfl⟩, _, _, run, -, rfl⟩ := first
      exact .cons (countBlocks_enriched run) (ih rest)

private theorem callHook_enriched {hook : FuncId} (ok : callHook hook f = (.ok u, f')) :
    f.Enriched f' := by
  simp only [callHook, Edit.bind_eq_ok, Edit.read_eq_ok] at ok
  obtain ⟨_, f, ⟨rfl, rfl⟩, run⟩ := ok
  cases there : f.entry? with
  | none =>
    rw [there] at run
    obtain ⟨-, rfl⟩ := Edit.pure_eq_ok.mp run
    exact .refl _
  | some block =>
    simp only [there, Edit.bind_eq_ok, Edit.pure_eq_ok] at run
    obtain ⟨_, _, called, -, rfl⟩ := run
    refine Insertion.edit_enriched (fun s began => by cases began; rfl) ?_ called
    exact (Insertion.enriches_insert _).bind fun _ => Insertion.enriches_pure _

private theorem inject_enriched {entry : FuncId} (ok : inject s entry m = (.ok c, m')) :
    m.Enriched m' := by
  simp only [inject, Edit.bind_eq_ok, Edit.pure_eq_ok, Edit.attempt_eq_ok] at ok
  obtain ⟨hook, m₁, found, global, m₂, added, _, m₃, edited, -, rfl⟩ := ok
  obtain ⟨f, f', here, changed, rfl⟩ := editFunction_eq_ok.mp edited
  exact ((Module.functionFor_enriched (Failure.mapError_eq_ok.mp found)).trans
    (Module.addGlobal_enriched (Failure.mapError_eq_ok.mp added))).trans
    (Module.setFunction_enriched here (callHook_enriched changed))

theorem count_enriched (ok : count s m = (.ok changed, m')) : m.Enriched m' := by
  simp only [count, Edit.bind_eq_ok] at ok
  obtain ⟨found, m₁, prepared, run⟩ := ok
  obtain ⟨rfl, rfl⟩ | ⟨entry, c, -, -, -, injected, rfl⟩ := setUp_eq_ok prepared
  · obtain ⟨-, rfl⟩ := Edit.pure_eq_ok.mp run
    exact .refl _
  · simp only [Edit.bind_eq_ok, Edit.pure_eq_ok, countModule, Edit.onPart_eq_ok,
      Edit.because_eq_ok] at run
    obtain ⟨_, _, ⟨functions, run, rfl⟩, -, rfl⟩ := run
    exact (inject_enriched injected).trans (Module.functions_enriched (countFunctions_enriched run))

theorem Counted.value?_old {before : List Instruction} {counter : GlobalId}
    (counted : Counted before counter f f') {id : ValueId} (old : id.index < f.values.length) :
    f'.value? id = f.value? id := by
  obtain ⟨added, grown, -⟩ := counted.values
  rw [Function.value?, Function.value?, grown, List.getElem?_append_left old]

/-- What a counted module consists of. Each function is counted in its place, and everything it refers
to is still there. -/
structure CountedModule (s : Settings) (m m' : Module) (entry hook : FuncId)
    (counted : List Function) : Prop where
  apart : s.hook ≠ s.counter ∧ s.hook ≠ s.entry
  named : m.functionNamed? s.entry = some entry
  callable : ∃ g, m'.function? hook = some g ∧ g.name = s.hook ∧ g.params = []
  whole : m' = { m with
    globals := m.globals ++ [counterGlobal s.counter]
    functions := counted ++ hookDeclaration m s.hook }
  size : counted.length = m.functions.length
  each : ∀ k f, m.functions[k]? = some f → ∃ f', counted[k]? = some f' ∧
    Counted (if k = entry.index then [hookCall hook] else []) ⟨m.globals.length⟩ f f' ∧
    Enlarged m f m' f'

theorem count_parts (built : m.Built) (ok : count s m = (.ok true, m')) :
    ∃ entry hook counted, CountedModule s m m' entry hook counted := by
  obtain ⟨entry, hook, m₁, counted, ready, rfl, size, each⟩ := count_result ok
  obtain ⟨g, callable, called, -, empty⟩ := hook_callable built.coherent ready size each
  have whole : { m₁ with functions := counted ++ hookDeclaration m s.hook } = { m with
      globals := m.globals ++ [counterGlobal s.counter]
      functions := counted ++ hookDeclaration m s.hook } := by rw [ready.result]
  refine ⟨entry, hook, counted, ready.apart, ready.named, ⟨g, callable, called, empty⟩, whole, size, ?_⟩
  intro k f here
  obtain ⟨f', there, made⟩ := each k f here
  refine ⟨f', there, made, ?_, ?_, ?_, ?_⟩
  · intro id g here
    have inside := (List.getElem?_eq_some_iff.mp here).1
    rw [whole, Module.global?, List.getElem?_append_left inside]
    exact here
  · intro id g here
    obtain ⟨g', there, grown⟩ := each _ _ here
    have inside := (List.getElem?_eq_some_iff.mp there).1
    refine ⟨g', ?_, by rw [grown.frame], ?_⟩
    · rw [Module.function?, List.getElem?_append_left inside, there]
    · exact grown.signature_eq (built.coherent.functions g (List.mem_of_getElem? here))
  · intro id v here
    rw [made.value?_old (List.getElem?_eq_some_iff.mp here).1, here]
  · intro id b here
    rw [Function.block?] at here
    rw [Function.block?, made.blocks, List.getElem?_mapIdx, here]
    exact ⟨_, rfl, rfl⟩

section
variable {entry hook : FuncId} {counted : List Function}

theorem CountedModule.function_cases (parts : CountedModule s m m' entry hook counted)
    (mem : f' ∈ m'.functions) :
    (∃ k f, m.functions[k]? = some f ∧ counted[k]? = some f' ∧
      Counted (if k = entry.index then [hookCall hook] else []) ⟨m.globals.length⟩ f f' ∧
      Enlarged m f m' f') ∨ f' = .declare s.hook .nullary := by
  rw [parts.whole] at mem
  exact function_cases_of_each parts.size parts.each mem

theorem CountedModule.mem_functions (parts : CountedModule s m m' entry hook counted) {k : Nat}
    (there : counted[k]? = some f') : f' ∈ m'.functions := by
  rw [parts.whole]
  exact List.mem_append_left _ (List.mem_of_getElem? there)

theorem CountedModule.global?_counter (parts : CountedModule s m m' entry hook counted) :
    m'.global? ⟨m.globals.length⟩ = some (counterGlobal s.counter) := by
  rw [parts.whole, Module.global?]
  exact List.getElem?_concat_length

end

end Tally
end BlockTally
