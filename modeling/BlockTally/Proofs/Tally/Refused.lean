import BlockTally.Proofs.Tally.Effect

/-! What is left of a module when counting is refused: all of it. Every check comes before the first
change, and no step behind it can fail. Main statement: `count_refused`. -/
namespace BlockTally.Tally

/-! Setting up. -/

private theorem callHook_eq (hook : FuncId) (f : Function) :
    callHook hook f = (.ok (), hooked hook f) := by
  suffices called : ∃ f', callHook hook f = (.ok (), f') by
    obtain ⟨f', called⟩ := called
    rw [called, callHook_result called]
  obtain ⟨name, ret, linkage, params, variadic, blocks, values, attrs⟩ := f
  cases blocks with
  | nil => exact ⟨_, rfl⟩
  | cons b blocks =>
    have start : (Insertion.atStart ⟨name, ret, linkage, params, variadic, b :: blocks, values,
        attrs⟩ ⟨0⟩).function.block? ⟨0⟩ = some b := rfl
    obtain ⟨s, inserted⟩ := Insertion.insert_succeeds (hookCall hook) start (Nat.zero_le _) rfl
    refine ⟨s.function, ?_⟩
    simp only [callHook, Edit.bind_eq_ok, Edit.read_eq_ok]
    refine ⟨_, _, ⟨rfl, rfl⟩, ?_⟩
    simp only [Function.entry?, List.isEmpty_cons, Bool.false_eq_true, if_false, Edit.bind_eq_ok,
      Edit.pure_eq_ok]
    refine ⟨none, _, Insertion.edit_eq_ok.mpr ⟨_, s, rfl, ?_, rfl⟩, trivial, rfl⟩
    simp only [Insertion.call, Ty.isVoid, decide_true, if_true, Edit.bind_eq_ok, Edit.pure_eq_ok]
    exact ⟨(), s, inserted, trivial, rfl⟩

private theorem free_of_hooked {m m' : Module} {hook : FuncId} {name hookName : String}
    (apart : hookName ≠ name) (free : m.symbol? name = none)
    (found : m.functionFor hookName .nullary = .ok (hook, m')) : name ∉ m'.symbolNames := by
  obtain ⟨grown, -⟩ := functionFor_result found
  rw [← Option.not_isSome_iff_eq_none, Module.symbol?_isSome] at free
  have names : m'.symbolNames =
      m.symbolNames ++ (hookDeclaration m hookName).map (·.name) := by
    simp [grown, Module.symbolNames]
  rw [names, List.mem_append, not_or]
  refine ⟨free, fun declared => ?_⟩
  obtain ⟨f, mem, same⟩ := List.mem_map.mp declared
  rw [mem_hookDeclaration mem] at same
  exact apart same

/-- Once the hook is there, nothing can fail any more. -/
theorem inject_succeeds {s : Settings} {m m₁ : Module} {entry hook : FuncId}
    (apart : s.hook ≠ s.counter) (named : m.functionNamed? s.entry = some entry)
    (free : m.symbol? s.counter = none)
    (found : m.functionFor s.hook .nullary = .ok (hook, m₁)) :
    ∃ c m', inject s entry m = (.ok c, m') := by
  obtain ⟨f, here, -⟩ := function?_of_named named
  obtain ⟨grown, -⟩ := functionFor_result found
  have there : Module.function?
      { m₁ with globals := m₁.globals ++ [counterGlobal s.counter] } entry = some f := by
    have inside := (List.getElem?_eq_some_iff.mp here).1
    rw [grown, Module.function?, List.getElem?_append_left inside]
    exact here
  have added := Module.addGlobal_eq_ok.mpr
    ⟨(free_of_hooked apart free found : (counterGlobal s.counter).name ∉ m₁.symbolNames), rfl, rfl⟩
  have edited := editFunction_eq_ok.mpr ⟨f, _, there, callHook_eq hook f, rfl⟩
  simp only [inject, Edit.bind_eq_ok, Edit.pure_eq_ok, Edit.attempt_eq_ok]
  exact ⟨_, _, hook, m₁, Failure.mapError_eq_ok.mpr found, _, _,
    Failure.mapError_eq_ok.mpr added, _, _, edited, rfl, rfl⟩

private theorem inject_error {s : Settings} {m m' : Module} {entry : FuncId} {e : Failure EditError}
    (apart : s.hook ≠ s.counter) (named : m.functionNamed? s.entry = some entry)
    (free : m.symbol? s.counter = none) (failed : inject s entry m = (.error e, m')) :
    m' = m ∧ e ≠ .outOfRange := by
  rcases Edit.bind_eq_error.mp failed with refused | ⟨hook, m₁, declared, -⟩
  · obtain ⟨conflict, rfl⟩ := Edit.attempt_eq_error.mp refused
    refine ⟨rfl, ?_⟩
    rintro rfl
    cases found : m'.functionFor s.hook .nullary <;> rw [found] at conflict <;> cases conflict
  · have found := Failure.mapError_eq_ok.mp (Edit.attempt_eq_ok.mp declared)
    obtain ⟨c, m'', done⟩ := inject_succeeds apart named free found
    rw [done] at failed
    cases failed

private theorem refuse_error {cause : PassError} {m m' : Module} {e : Failure PassError}
    (failed : (Edit.refuse cause : Edit Module PassError α) m = (.error e, m')) :
    m' = m ∧ e ≠ .outOfRange := by
  cases failed
  exact ⟨rfl, nofun⟩

theorem setUp_error {s : Settings} {m m' : Module} {e : Failure PassError}
    (failed : setUp s m = (.error e, m')) : m' = m ∧ e ≠ .outOfRange := by
  simp only [setUp, Edit.bind_of_ok (Edit.read_eq_ok.mpr ⟨rfl, rfl⟩)] at failed
  cases named : m.functionNamed? s.entry with
  | none => exact refuse_error (named ▸ failed)
  | some entry =>
    by_cases clash : (decide (s.hook = s.counter) || decide (s.hook = s.entry)) = true
    · simp only [named, clash, if_true] at failed
      exact refuse_error failed
    · have apart : s.hook ≠ s.counter ∧ s.hook ≠ s.entry := by simpa using clash
      simp only [named, clash, if_false, Bool.false_eq_true,
        Edit.bind_of_ok (Edit.read_eq_ok.mpr ⟨rfl, rfl⟩)] at failed
      cases free : m.symbol? s.counter with
      | some symbol =>
        cases symbol with
        | function => exact refuse_error (free ▸ failed)
        | global =>
          cases existing : s.onExisting with
          | fail =>
            simp only [free, existing] at failed
            exact refuse_error failed
          | skip =>
            simp only [free, existing] at failed
            cases failed
      | none =>
        simp only [free] at failed
        rcases Edit.bind_eq_error.mp failed with conflict | ⟨_, _, -, returned⟩
        · obtain ⟨cause, stopped, rfl⟩ := Edit.because_eq_error.mp conflict
          obtain ⟨rfl, proper⟩ := inject_error apart.1 named free stopped
          cases cause with
          | refused => exact ⟨rfl, by simp [Failure.map]⟩
          | outOfRange => exact absurd rfl proper
        · cases returned

/-! Counting. -/

section
variable {counter : GlobalId} {f f' : Function}

/-- Every block has its terminator. -/
def Ended (f : Function) : Prop := ∀ b ∈ f.blocks, b.terminator?.isSome

private theorem countBlock_succeeds (counter : GlobalId) {block : BlockId} {b : Block}
    (here : f.block? block = some b) (ends : b.terminator?.isSome) :
    ∃ f', countBlock ⟨counter, .i64⟩ block f = (.ok (), f') := by
  obtain ⟨last, ends⟩ := Option.isSome_iff_exists.mp ends
  obtain ⟨-, front, whole⟩ := Block.terminator?_eq_some.mp ends
  obtain ⟨name, insts⟩ := b
  simp only at whole
  subst whole
  have start : Insertion.beforeTerminator f block = .ok ⟨f, block, front.length⟩ := by
    simp [Insertion.beforeTerminator, here, Failure.present, Block.terminatorIndex?, ends, bind,
      Except.bind]
  have place : Insertion.Between ⟨f, block, front.length⟩ name front [last] := ⟨here, rfl⟩
  have behind : [last] ≠ [] := List.cons_ne_nil _ _
  obtain ⟨old, s₁, loaded⟩ := Insertion.define_succeeds (.load .i64 (.global counter) none)
    "old.bb.count" place behind rfl
  obtain ⟨-, -, -, -, place₁⟩ := Insertion.define_between place loaded
  obtain ⟨new, s₂, summed⟩ := Insertion.define_succeeds
    (.arith .add .i64 (.value old) (.int 64 1) false false) "new.bb.count" place₁ behind rfl
  obtain ⟨-, -, -, -, place₂⟩ := Insertion.define_between place₁ summed
  obtain ⟨s₃, stored⟩ := Insertion.insert_succeeds
    { op := .store .i64 (.value new) (.global counter) none } place₂.block
    (place₂.room behind) rfl
  refine ⟨s₃.function, Insertion.edit_eq_ok.mpr ⟨_, s₃, start, ?_, rfl⟩⟩
  simp only [increment, Edit.bind_eq_ok]
  exact ⟨old, s₁, loaded, new, s₂, summed, stored⟩

/-- The blocks that are not counted yet are as they were. -/
theorem CountedUpTo.block?_next {count : Nat} (so_far : CountedUpTo counter count f f') {b : Block}
    (here : f.blocks[count]? = some b) : f'.block? ⟨count⟩ = some b := by
  obtain ⟨-, added, -, -, rfl⟩ := so_far
  simp [Function.block?, List.getElem?_mapIdx, here]

private theorem countBlocks_succeeds (ended : Ended f) :
    ∀ (more : Nat) {count : Nat} {f' : Function},
    CountedUpTo counter count f f' → count + more ≤ f.blocks.length →
    ∃ f'', countBlocks ⟨counter, .i64⟩ ((List.range' count more).map .mk) f' = (.ok (), f'')
  | 0, _, f', _, _ => ⟨f', rfl⟩
  | more + 1, count, f', so_far, inside => by
    have here : f.blocks[count]? = some f.blocks[count] := List.getElem?_eq_getElem (by omega)
    obtain ⟨between, first⟩ := countBlock_succeeds counter
      (so_far.block?_next here) (ended _ (List.getElem_mem _))
    obtain ⟨f'', rest⟩ := countBlocks_succeeds ended more (so_far.succ first) (by omega)
    refine ⟨f'', ?_⟩
    rw [List.range'_succ, List.map_cons, countBlocks, Edit.bind_eq_ok]
    exact ⟨(), between, first, rest⟩

private theorem countFunction_succeeds (counter : GlobalId) (ended : Ended f) :
    ∃ changed f', countFunction ⟨counter, .i64⟩ f = (.ok changed, f') := by
  obtain ⟨f', done⟩ := countBlocks_succeeds ended f.blocks.length (.zero counter f) (by omega)
  refine ⟨f.blocks.length != 0, f', ?_⟩
  simp only [countFunction, Edit.bind_eq_ok, Edit.read_eq_ok, Edit.pure_eq_ok]
  exact ⟨_, f, ⟨rfl, rfl⟩, (), f', by rwa [List.range_eq_range'], rfl, rfl⟩

private theorem countFunctions_succeeds (counter : GlobalId) : ∀ {fs : List Function},
    (∀ f ∈ fs, Ended f) → ∃ fs', countFunctions ⟨counter, .i64⟩ fs = (.ok (), fs')
  | [], _ => ⟨[], rfl⟩
  | f :: fs, ended => by
    obtain ⟨first, rest⟩ := List.forall_mem_cons.mp ended
    obtain ⟨changed, f', done⟩ := countFunction_succeeds counter first
    obtain ⟨fs', others⟩ := countFunctions_succeeds counter rest
    exact ⟨f' :: fs', by simp [countFunctions, done, others]⟩

theorem Ended.hooked (ended : Ended f) (hook : FuncId) : Ended (hooked hook f) := by
  obtain ⟨name, ret, linkage, params, variadic, blocks, values, attrs⟩ := f
  cases blocks with
  | nil => exact ended
  | cons b blocks =>
    obtain ⟨first, others⟩ := List.forall_mem_cons.mp ended
    exact List.forall_mem_cons.mpr ⟨by rwa [terminator?_hooked], others⟩

theorem Prepared.ended {s : Settings} {m m₁ : Module} {entry hook : FuncId}
    (ready : Prepared s m entry hook m₁) (ended : ∀ f ∈ m.functions, Ended f) :
    ∀ f ∈ m₁.functions, Ended f := by
  intro f mem
  rw [ready.result] at mem
  rcases List.mem_append.mp mem with old | declared
  · obtain ⟨k, here⟩ := List.getElem?_of_mem old
    rw [List.getElem?_modify] at here
    obtain ⟨g, there, rfl⟩ := Option.map_eq_some_iff.mp here
    have before := ended g (List.mem_of_getElem? there)
    split
    · exact before.hooked hook
    · exact before
  · rw [mem_hookDeclaration declared]
    exact nofun

end

theorem countModule_succeeds (counter : GlobalId) {m : Module}
    (ended : ∀ f ∈ m.functions, Ended f) :
    ∃ m', countModule ⟨counter, .i64⟩ m = (.ok (), m') := by
  obtain ⟨functions, done⟩ := countFunctions_succeeds counter ended
  exact ⟨_, Edit.onPart_eq_ok.mpr ⟨functions, Edit.because_eq_ok.mpr done, rfl⟩⟩

/-- Setting up changes nothing unless it succeeds, and where it does every block with a terminator
can be counted: a module is counted as a whole or not at all. -/
theorem count_refused {s : Settings} {m : Module} :
    (∀ e m', setUp s m = (.error e, m') → m' = m ∧ e ≠ .outOfRange) ∧
    (∀ m', setUp s m = (.ok none, m') → m' = m) ∧
    ((∀ f ∈ m.functions, ∀ b ∈ f.blocks, b.terminator?.isSome) →
      (∀ e m', count s m = (.error e, m') → m' = m ∧ setUp s m = (.error e, m)) ∧
      ∀ m', count s m = (.ok false, m') → m' = m) := by
  refine ⟨fun e m' => setUp_error, fun m' skipped => ?_, fun ended => ⟨fun e m' failed => ?_,
    fun m' => count_unchanged⟩⟩
  · rcases setUp_result skipped with ⟨-, same⟩ | ⟨⟨⟩, -⟩
    exact same
  · rcases Edit.bind_eq_error.mp failed with stopped | ⟨found, m₁, prepared, counting⟩
    · obtain ⟨rfl, -⟩ := setUp_error stopped
      exact ⟨rfl, stopped⟩
    · rcases setUp_result prepared with ⟨rfl, -⟩ | ⟨rfl, entry, hook, ready⟩
      · cases counting
      · obtain ⟨m₂, done⟩ := countModule_succeeds ⟨m.globals.length⟩
          (ready.ended ended)
        rcases Edit.bind_eq_error.mp counting with stopped | ⟨_, _, -, returned⟩
        · rw [done] at stopped
          cases stopped
        · cases returned

/-- A module that has a counter. -/
def tallied : Module where
  name := "m"
  globals := [counterGlobal "bbCounter"]
  functions := [returning "main"]

theorem count_refused_tallied : (∀ f ∈ tallied.functions, ∀ b ∈ f.blocks, b.terminator?.isSome) ∧
    count {} tallied = (.error (.refused (.alreadyCounted "bbCounter")), tallied) ∧
    setUp {} tallied = (.error (.refused (.alreadyCounted "bbCounter")), tallied) := by
  have ended : ∀ f ∈ tallied.functions, ∀ b ∈ f.blocks, b.terminator?.isSome := by decide
  have failed : count {} tallied = (.error (.refused (.alreadyCounted "bbCounter")), tallied) := rfl
  obtain ⟨-, -, whole⟩ := count_refused (s := {}) (m := tallied)
  obtain ⟨-, early⟩ := (whole ended).1 _ _ failed
  exact ⟨ended, failed, early⟩

end BlockTally.Tally
