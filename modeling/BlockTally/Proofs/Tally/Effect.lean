import BlockTally.Proofs.Code.Built
import BlockTally.Proofs.Tally.Counted

/-! What counting does to a module as a whole. Main statements: `setUp_result` for the counter and
the hook, `count_effect` for every part of the module. -/
namespace BlockTally.Tally

/-- The hook is called first of all, where there are blocks. -/
def hooked (hook : FuncId) (f : Function) : Function :=
  { f with blocks := f.blocks.modifyHead fun b => { b with insts := hookCall hook :: b.insts } }

/-- The hook as a function that is only declared, where the module has no function of its name. -/
def hookDeclaration (m : Module) (hook : String) : List Function :=
  if (m.functionNamed? hook).isSome then [] else [.declare hook .nullary]

theorem mem_hookDeclaration {m : Module} {hook : String} {f : Function}
    (mem : f ∈ hookDeclaration m hook) : f = .declare hook .nullary := by
  unfold hookDeclaration at mem
  split at mem
  · cases mem
  · exact List.mem_singleton.mp mem

theorem callHook_result {hook : FuncId} {f f' : Function} (ok : callHook hook f = (.ok u, f')) :
    f' = hooked hook f := by
  obtain ⟨name, ret, linkage, params, variadic, blocks, values, attrs⟩ := f
  simp only [callHook, Edit.bind_eq_ok, Edit.read_eq_ok] at ok
  obtain ⟨_, _, ⟨rfl, rfl⟩, run⟩ := ok
  cases blocks with
  | nil =>
    obtain ⟨-, rfl⟩ := Edit.pure_eq_ok.mp run
    rfl
  | cons b blocks =>
    simp only [Function.entry?, List.isEmpty_cons, Bool.false_eq_true, if_false,
      Edit.bind_eq_ok, Edit.pure_eq_ok] at run
    obtain ⟨_, _, run, -, rfl⟩ := run
    obtain ⟨_, s, ⟨⟩, called, rfl⟩ := Insertion.edit_eq_ok.mp run
    simp only [Insertion.call, Ty.isVoid, decide_true, if_true, Edit.bind_eq_ok,
      Edit.pure_eq_ok] at called
    obtain ⟨_, _, inserted, -, rfl⟩ := called
    have place : Insertion.Between (.atStart ⟨name, ret, linkage, params, variadic, b :: blocks,
        values, attrs⟩ ⟨0⟩) b.name [] b.insts := ⟨rfl, rfl⟩
    obtain ⟨same, -⟩ := Insertion.insert_between place inserted
    rw [same]
    rfl

theorem function?_of_named {m : Module} {name : String} {id : FuncId}
    (named : m.functionNamed? name = some id) : ∃ f, m.function? id = some f ∧ f.name = name := by
  obtain ⟨k, first, rfl⟩ := Option.map_eq_some_iff.mp named
  exact named_of_findIdx? first

theorem functionFor_result {name : String} {m m' : Module} {hook : FuncId}
    (ok : m.functionFor name .nullary = .ok (hook, m')) :
    m' = { m with functions := m.functions ++ hookDeclaration m name } ∧
      m'.functionNamed? name = some hook ∧
      ∃ f, m'.function? hook = some f ∧ f.name = name ∧ f.signature = .nullary := by
  unfold Module.functionFor at ok
  split at ok
  · next free =>
    obtain ⟨unused, rfl, rfl⟩ := Module.addFunction_eq_ok.mp ok
    have absent : name ∉ m.functions.map (·.name) := fun mem =>
      unused (List.mem_append_right _ mem)
    have none_named : m.functions.findIdx? (·.name == name) = none :=
      List.findIdx?_eq_none_iff.mpr fun f mem =>
        beq_eq_false_iff_ne.mpr fun same => absent (List.mem_map.mpr ⟨f, mem, same⟩)
    refine ⟨by simp [hookDeclaration, Module.functionNamed?, none_named], ?_, ?_⟩
    · simp [Module.functionNamed?, List.findIdx?_append, none_named, Function.declare,
        Signature.nullary]
    · exact ⟨.declare name .nullary, by simp [Module.function?], rfl, rfl⟩
  · cases ok
  · next id found =>
    split at ok
    · cases ok
    · next f here =>
      split at ok
      · next same =>
        cases ok
        have named : m.functionNamed? name = some hook := by
          unfold Module.symbol? at found
          cases global : m.globalNamed? name <;> simp [global] at found
          exact found
        obtain ⟨f', here', bears⟩ := function?_of_named named
        obtain rfl : f = f' := Option.some.inj (here.symm.trans here')
        exact ⟨by simp [hookDeclaration, named], named, f, here, bears, same⟩
      · cases ok

theorem editFunction_eq_ok {id : FuncId} {change : Edit Function ε α} {a : α} {m m' : Module} :
    Module.editFunction id change m = (.ok a, m') ↔
      ∃ f f', m.function? id = some f ∧ change f = (.ok a, f') ∧ m' = m.setFunction id f' := by
  unfold Module.editFunction
  cases m.function? id with
  | none => simp
  | some f => simp [Edit.onPart_eq_ok]

private theorem set_eq_modify {α : Type} {l : List α} {i : Nat} {change : α → α}
    (inside : i < l.length) : l.set i (change l[i]) = l.modify i change := by
  apply List.ext_getElem (by simp)
  intro k _ _
  simp only [List.getElem_set, List.getElem_modify]
  split
  · next same => simp [same]
  · rfl

/-- What setting up has done to `m`, and what it found: the entry function and the hook. -/
structure Prepared (s : Settings) (m : Module) (entry hook : FuncId) (m' : Module) : Prop where
  apart : s.hook ≠ s.counter ∧ s.hook ≠ s.entry
  named : m.functionNamed? s.entry = some entry
  free : m.symbol? s.counter = none
  callable : ∃ f, m'.function? hook = some f ∧ f.name = s.hook ∧ f.signature = .nullary
  result : m' = { m with
    globals := m.globals ++ [counterGlobal s.counter]
    functions := m.functions.modify entry.index (hooked hook) ++ hookDeclaration m s.hook }

private theorem inject_result {s : Settings} {m m' : Module} {entry : FuncId} {c : Counter}
    (apart : s.hook ≠ s.counter ∧ s.hook ≠ s.entry) (named : m.functionNamed? s.entry = some entry)
    (free : m.symbol? s.counter = none) (ok : inject s entry m = (.ok c, m')) :
    c = ⟨⟨m.globals.length⟩, .i64⟩ ∧ ∃ hook, Prepared s m entry hook m' := by
  simp only [inject, Edit.bind_eq_ok, Edit.pure_eq_ok, Edit.attempt_eq_ok] at ok
  obtain ⟨hook, m₁, found, global, m₂, added, _, m₃, edited, rfl, rfl⟩ := ok
  obtain ⟨grown, -, target, callable, called, nullary⟩ :=
    functionFor_result (Failure.mapError_eq_ok.mp found)
  obtain ⟨-, rfl, rfl⟩ := Module.addGlobal_eq_ok.mp (Failure.mapError_eq_ok.mp added)
  obtain ⟨f, f', here, changed, rfl⟩ := editFunction_eq_ok.mp edited
  have hooks := callHook_result changed
  subst hooks grown
  obtain ⟨g, there, bears⟩ := function?_of_named named
  obtain ⟨inside, rfl⟩ := List.getElem?_eq_some_iff.mp there
  simp only [Module.function?, List.getElem?_append_left inside,
    List.getElem?_eq_getElem inside, Option.some.injEq] at here
  subst here
  refine ⟨rfl, hook, apart, named, free, ⟨target, ?_, called, nullary⟩, ?_⟩
  · have other : entry.index ≠ hook.index := by
      intro same
      simp only [Module.function?, ← same, List.getElem?_append_left inside,
        List.getElem?_eq_getElem inside, Option.some.injEq] at callable
      exact apart.2 (called ▸ callable ▸ bears)
    simpa [Module.setFunction, Module.function?, List.getElem?_set_ne other] using callable
  · simp only [Module.setFunction, List.set_append_left _ _ inside, set_eq_modify inside]

/-- Setting up leaves the module alone, or it has found everything in order and adds what is missing. -/
theorem setUp_eq_ok {s : Settings} {m m' : Module} {found : Option Counter}
    (ok : setUp s m = (.ok found, m')) : found = none ∧ m' = m ∨
      ∃ entry c, (s.hook ≠ s.counter ∧ s.hook ≠ s.entry) ∧ m.functionNamed? s.entry = some entry ∧
        m.symbol? s.counter = none ∧ inject s entry m = (.ok c, m') ∧ found = some c := by
  simp only [setUp, Edit.bind_eq_ok, Edit.read_eq_ok] at ok
  obtain ⟨_, m, ⟨rfl, rfl⟩, run⟩ := ok
  cases named : m.functionNamed? s.entry with
  | none => exact absurd (named ▸ run) Edit.refuse_ne_ok
  | some entry =>
    by_cases clash : (decide (s.hook = s.counter) || decide (s.hook = s.entry)) = true
    · simp only [named, clash, if_true] at run
      exact absurd run Edit.refuse_ne_ok
    · have apart : s.hook ≠ s.counter ∧ s.hook ≠ s.entry := by simpa using clash
      simp only [named, clash, if_false, Bool.false_eq_true, Edit.bind_eq_ok, Edit.read_eq_ok] at run
      obtain ⟨_, m, ⟨rfl, rfl⟩, run⟩ := run
      cases free : m.symbol? s.counter with
      | some symbol =>
        cases symbol with
        | function => exact absurd (free ▸ run) Edit.refuse_ne_ok
        | global =>
          cases existing : s.onExisting with
          | fail =>
            simp only [free, existing] at run
            exact absurd run Edit.refuse_ne_ok
          | skip =>
            simp only [free, existing] at run
            exact .inl (Edit.pure_eq_ok.mp run)
      | none =>
        simp only [free, Edit.bind_eq_ok, Edit.because_eq_ok, Edit.pure_eq_ok] at run
        obtain ⟨c, _, injected, rfl, rfl⟩ := run
        exact .inr ⟨entry, c, apart, rfl, rfl, injected, rfl⟩

theorem setUp_result {s : Settings} {m m' : Module} {found : Option Counter}
    (ok : setUp s m = (.ok found, m')) : found = none ∧ m' = m ∨
      found = some ⟨⟨m.globals.length⟩, .i64⟩ ∧ ∃ entry hook, Prepared s m entry hook m' := by
  obtain unchanged | ⟨entry, c, apart, named, free, injected, rfl⟩ := setUp_eq_ok ok
  · exact .inl unchanged
  · obtain ⟨rfl, hook, ready⟩ := inject_result apart named free injected
    exact .inr ⟨rfl, entry, hook, ready⟩

/-- A function with all its blocks counted, where `before` stands in front of the first. The blocks
take two new values each, in their order. -/
structure Counted (before : List Instruction) (counter : GlobalId) (f f' : Function) : Prop where
  frame : f' = { f with blocks := f'.blocks, values := f'.values }
  ended : ∀ b ∈ f.blocks, b.terminator?.isSome
  blocks : f'.blocks = f.blocks.mapIdx fun k b =>
    countedBlock (if k = 0 then before else []) counter (f.values.length + 2 * k) b
  values : ∃ added, f'.values = f.values ++ added ∧ added.length = 2 * f.blocks.length ∧
    NewValues f.values added

private theorem countedBlock_hooked {hook : FuncId} {counter : GlobalId} {first : Nat} {b : Block}
    (ends : b.terminator?.isSome) :
    countedBlock [] counter first { b with insts := hookCall hook :: b.insts } =
      countedBlock [hookCall hook] counter first b := by
  obtain ⟨last, ends⟩ := Option.isSome_iff_exists.mp ends
  obtain ⟨-, front, whole⟩ := Block.terminator?_eq_some.mp ends
  simp only [countedBlock, whole, List.getLast?_cons, List.getLast?_append, List.getLast?_nil,
    List.dropLast_concat]
  rw [← List.cons_append, List.dropLast_concat]
  simp

theorem terminator?_hooked (hook : FuncId) (b : Block) :
    Block.terminator? { b with insts := hookCall hook :: b.insts } = b.terminator? := by
  obtain ⟨name, insts⟩ := b
  cases insts with
  | nil => rfl
  | cons inst insts => rw [Block.terminator?, Block.terminator?, List.getLast?_cons_cons]

theorem CountedUpTo.counted {counter : GlobalId} {f f' : Function}
    (all : CountedUpTo counter f.blocks.length f f') : Counted [] counter f f' := by
  obtain ⟨ended, added, fresh, size, rfl⟩ := all
  refine ⟨rfl, ?_, ?_, added, rfl, size, fresh⟩
  · intro b mem
    obtain ⟨k, inside, rfl⟩ := List.getElem_of_mem mem
    exact ended k _ inside (List.getElem?_eq_getElem inside)
  · apply List.ext_getElem (by simp)
    intro k inside _
    simp only [List.length_mapIdx] at inside
    simp [inside]

theorem CountedUpTo.counted_hooked {hook : FuncId} {counter : GlobalId} {f f' : Function}
    (all : CountedUpTo counter (hooked hook f).blocks.length (hooked hook f) f') :
    Counted [hookCall hook] counter f f' := by
  obtain ⟨frame, ended, blocks, added, grown, size, fresh⟩ := all.counted
  obtain ⟨name, ret, linkage, params, variadic, old, values, attrs⟩ := f
  refine ⟨frame, ?_, ?_, added, grown, ?_, fresh⟩
  · cases old with
    | nil => simp
    | cons b old =>
      obtain ⟨first, others⟩ := List.forall_mem_cons.mp ended
      rw [terminator?_hooked] at first
      exact List.forall_mem_cons.mpr ⟨first, others⟩
  · cases old with
    | nil => simpa [hooked] using blocks
    | cons b old =>
      have first := (List.forall_mem_cons.mp ended).1
      rw [terminator?_hooked] at first
      simpa [hooked, List.mapIdx_cons, countedBlock_hooked first] using blocks
  · simpa [hooked] using size

private theorem related_at {α β : Type} {R : α → β → Prop} {l : List α} {l' : List β}
    (related : List.Forall₂ R l l') {k : Nat} {a : α} (here : l[k]? = some a) :
    ∃ b, l'[k]? = some b ∧ R a b := by
  obtain ⟨inside, rfl⟩ := List.getElem?_eq_some_iff.mp here
  have inside' : k < l'.length := related.length_eq ▸ inside
  exact ⟨_, List.getElem?_eq_getElem inside', related.get inside inside'⟩

private theorem declarations_unchanged {counter : GlobalId} {fs fs' : List Function}
    (related : List.Forall₂ (fun f f' => CountedUpTo counter f.blocks.length f f') fs fs')
    (declared : ∀ f ∈ fs, f.blocks = []) : fs' = fs := by
  induction related with
  | nil => rfl
  | @cons f f' fs fs' made _ ih =>
    obtain ⟨none_here, declared⟩ := List.forall_mem_cons.mp declared
    obtain ⟨-, added, -, size, rfl⟩ := made
    rw [none_here, List.length_nil, Nat.mul_zero] at size
    rw [ih declared, List.eq_nil_of_length_eq_zero size]
    obtain ⟨name, ret, linkage, params, variadic, _, values, attrs⟩ := f
    cases none_here
    simp

theorem count_unchanged {s : Settings} {m m' : Module} (ok : count s m = (.ok false, m')) :
    m' = m := by
  simp only [count, Edit.bind_eq_ok] at ok
  obtain ⟨_ | c, m₁, prepared, run⟩ := ok
  · obtain ⟨-, rfl⟩ | ⟨⟨⟩, -⟩ := setUp_result prepared
    exact (Edit.pure_eq_ok.mp run).2
  · simp only [Edit.bind_eq_ok, Edit.pure_eq_ok] at run
    obtain ⟨_, _, _, ⟨⟩, -⟩ := run

theorem count_result {s : Settings} {m m' : Module} (ok : count s m = (.ok true, m')) :
    ∃ entry hook m₁ counted, Prepared s m entry hook m₁ ∧
      m' = { m₁ with functions := counted ++ hookDeclaration m s.hook } ∧
      counted.length = m.functions.length ∧
      ∀ k f, m.functions[k]? = some f → ∃ f', counted[k]? = some f' ∧
        Counted (if k = entry.index then [hookCall hook] else []) ⟨m.globals.length⟩ f f' := by
  simp only [count, Edit.bind_eq_ok] at ok
  obtain ⟨_ | c, m₁, prepared, run⟩ := ok
  · cases (Edit.pure_eq_ok.mp run).1
  · simp only [Edit.bind_eq_ok, Edit.pure_eq_ok, countModule, Edit.onPart_eq_ok,
      Edit.because_eq_ok] at run
    obtain ⟨_, m₂, ⟨functions, run, rfl⟩, -, rfl⟩ := run
    obtain ⟨⟨⟩, -⟩ | ⟨same, entry, hook, ready⟩ := setUp_result prepared
    cases same
    have related := countFunctions_result run
    rw [ready.result] at related
    have first := List.forall₂_take m.functions.length related
    have last := List.forall₂_drop m.functions.length related
    simp only [List.take_left', List.drop_left', List.length_modify] at first last
    have declared : ∀ f ∈ hookDeclaration m s.hook, f.blocks = [] := by
      intro f mem
      rw [mem_hookDeclaration mem]
      rfl
    refine ⟨entry, hook, m₁, functions.take m.functions.length, ready, ?_, ?_, ?_⟩
    · rw [← declarations_unchanged last declared, List.take_append_drop]
    · simpa using first.length_eq.symm
    · intro k f here
      by_cases entered : k = entry.index
      · subst entered
        have here' : (m.functions.modify entry.index (hooked hook))[entry.index]? =
            some (hooked hook f) := by simp [here]
        obtain ⟨f', there, made⟩ := related_at first here'
        exact ⟨f', there, by simpa using made.counted_hooked⟩
      · have here' : (m.functions.modify entry.index (hooked hook))[k]? = some f := by
          simp [here, Ne.symm entered]
        obtain ⟨f', there, made⟩ := related_at first here'
        exact ⟨f', there, by simpa [entered] using made.counted⟩

/-- A function that is there after counting is an old one in its place, or the hook. -/
theorem function_cases_of_each {m : Module} {hook : String} {counted : List Function}
    {R : Nat → Function → Function → Prop} (size : counted.length = m.functions.length)
    (each : ∀ k f, m.functions[k]? = some f → ∃ f', counted[k]? = some f' ∧ R k f f') {f' : Function}
    (mem : f' ∈ counted ++ hookDeclaration m hook) :
    (∃ k f, m.functions[k]? = some f ∧ counted[k]? = some f' ∧ R k f f') ∨
      f' = .declare hook .nullary := by
  rcases List.mem_append.mp mem with old | new
  · obtain ⟨k, there⟩ := List.getElem?_of_mem old
    have inside : k < m.functions.length := size ▸ (List.getElem?_eq_some_iff.mp there).1
    have here := List.getElem?_eq_getElem inside
    obtain ⟨f'', there', related⟩ := each k _ here
    obtain rfl := Option.some.inj (there.symm.trans there')
    exact .inl ⟨k, _, here, there, related⟩
  · exact .inr (mem_hookDeclaration new)

theorem Counted.signature_eq {before : List Instruction} {counter : GlobalId} {f f' : Function}
    (counted : Counted before counter f f') (coherent : f.Coherent) :
    f'.signature = f.signature := by
  obtain ⟨added, grown, -⟩ := counted.values
  rw [counted.frame]
  simp only [Function.signature, Signature.mk.injEq, true_and, and_true]
  apply List.filterMap_congr
  intro id mem
  rw [Function.value?, Function.value?, grown,
    List.getElem?_append_left (coherent.param_lt mem)]

private theorem params_of_nullary {f : Function} (coherent : f.Coherent)
    (nullary : f.signature = .nullary) : f.params = [] := by
  have none_typed : (f.params.filterMap fun id => (f.value? id).map (·.ty)) = [] :=
    congrArg Signature.params nullary
  refine List.eq_nil_iff_forall_not_mem.mpr fun id mem => ?_
  have inside := coherent.param_lt mem
  have := List.filterMap_eq_nil_iff.mp none_typed id mem
  simp [Function.value?, List.getElem?_eq_getElem inside] at this

/-- The hook as it can be called in the end: a function of the module that takes nothing and
returns nothing. -/
theorem hook_callable {s : Settings} {m m₁ : Module} {entry hook : FuncId}
    {counted : List Function} (coherent : m.Coherent) (ready : Prepared s m entry hook m₁)
    (size : counted.length = m.functions.length)
    (each : ∀ k f, m.functions[k]? = some f → ∃ f', counted[k]? = some f' ∧
      Counted (if k = entry.index then [hookCall hook] else []) ⟨m.globals.length⟩ f f') :
    ∃ f, (counted ++ hookDeclaration m s.hook)[hook.index]? = some f ∧ f.name = s.hook ∧
      f.signature = .nullary ∧ f.params = [] := by
  obtain ⟨f, here, called, nullary⟩ := ready.callable
  rw [Module.function?, ready.result] at here
  by_cases old : hook.index < m.functions.length
  · rw [List.getElem?_append_left (by simpa using old), List.getElem?_modify] at here
    obtain ⟨g, there, rfl⟩ := Option.map_eq_some_iff.mp here
    obtain ⟨f', made, grown⟩ := each _ _ there
    have sound := coherent.functions g (List.mem_of_getElem? there)
    have empty : g.signature = .nullary := by
      split at nullary
      · exact nullary
      · exact nullary
    refine ⟨f', by rwa [List.getElem?_append_left (size ▸ old)], ?_, ?_, ?_⟩
    · rw [grown.frame]
      split at called
      · exact called
      · exact called
    · rw [grown.signature_eq sound, empty]
    · have none_there := params_of_nullary sound empty
      rw [grown.frame]
      exact none_there
  · rw [List.getElem?_append_right (by simpa using old)] at here
    refine ⟨f, ?_, called, nullary, params_of_nullary ?_ nullary⟩
    · rw [List.getElem?_append_right (by omega)]
      simpa [size] using here
    · rw [mem_hookDeclaration (List.mem_of_getElem? here)]
      exact (Function.declare_built _ _).coherent

/-- Where counting has changed a module, it has added the counter and the missing declaration of
the hook, and it has counted each old function in its place; all the rest is as it was. -/
theorem count_effect {s : Settings} {m m' : Module} (built : m.Built)
    (ok : count s m = (.ok true, m')) :
    ∃ entry hook counted, m.functionNamed? s.entry = some entry ∧
      (∃ f, m'.function? hook = some f ∧ f.name = s.hook ∧ f.signature = .nullary) ∧
      m' = { m with
        globals := m.globals ++ [counterGlobal s.counter]
        functions := counted ++ hookDeclaration m s.hook } ∧
      counted.length = m.functions.length ∧
      ∀ k f, m.functions[k]? = some f → ∃ f', counted[k]? = some f' ∧
        f'.signature = f.signature ∧
        Counted (if k = entry.index then [hookCall hook] else []) ⟨m.globals.length⟩ f f' := by
  obtain ⟨entry, hook, m₁, counted, ready, rfl, size, each⟩ := count_result ok
  refine ⟨entry, hook, counted, ready.named, ?_, by rw [ready.result], size, ?_⟩
  · obtain ⟨f, here, called, nullary, -⟩ := hook_callable built.coherent ready size each
    exact ⟨f, here, called, nullary⟩
  · intro k f here
    obtain ⟨f', there, grown⟩ := each k f here
    have coherent := built.coherent.functions f (List.mem_of_getElem? here)
    exact ⟨f', there, grown.signature_eq coherent, grown⟩

/-- A function that returns at once. -/
def returning (name : String) : Function :=
  { name, ret := .void, blocks := [{ name := "", insts := [{ op := .ret .void none }] }] }

private theorem returning_built (name : String) : (returning name).Built :=
  ⟨name, .void, .tail (.single (.addBlock _ "")) (.setBlock _ ⟨0⟩ ⟨"", [{ op := .ret .void none }]⟩)⟩

theorem returning_module_built (name : String) :
    Module.Built { name := "m", functions := [returning name] } :=
  .addFunction (.new "m") (returning_built name)
    (Module.addFunction_eq_ok.mpr ⟨List.not_mem_nil, rfl, rfl⟩)

theorem count_effect_returning :
    Module.Built { name := "m", functions := [returning "main"] } ∧
    ∃ m', count {} { name := "m", functions := [returning "main"] } = (.ok true, m') ∧
      m'.functions.length = 2 := by
  have built := returning_module_built "main"
  have run : ∃ m', count {} { name := "m", functions := [returning "main"] } = (.ok true, m') :=
    ⟨_, Edit.run_of_fst (by decide +kernel)⟩
  obtain ⟨m', ok⟩ := run
  obtain ⟨_, _, counted, -, -, rfl, size, -⟩ := count_effect built ok
  exact ⟨built, _, ok, by simp [size]; rfl⟩

end BlockTally.Tally
