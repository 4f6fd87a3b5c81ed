import BlockTally.Proofs.Listing.Restored
import BlockTally.Proofs.Tally.Verified

/-! A counted module in a listing. What counting adds can be listed and read again like the rest of the
module, and it is counted no second time. Main statements: `CountedModule.fromText`,
`CountedModule.restorable`. -/
namespace BlockTally
open Listing

/-! Larger tables. -/

section
variable {m m' : Module} {f f' : Function}

theorem Operand.In.enlarged {o : Operand} (inside : o.In m f) (grown : Enlarged m f m' f') :
    o.In m' f' := by
  cases o with
  | value id =>
    obtain ⟨v, here⟩ := Option.isSome_iff_exists.mp inside
    exact Option.isSome_of_eq_some (grown.values id v here)
  | global id =>
    obtain ⟨g, here⟩ := Option.isSome_iff_exists.mp inside
    exact Option.isSome_of_eq_some (grown.globals id g here)
  | function id =>
    obtain ⟨g, here⟩ := Option.isSome_iff_exists.mp inside
    obtain ⟨g', there, -⟩ := grown.functions id g here
    exact Option.isSome_of_eq_some there
  | constant c => trivial

theorem Operation.FromText.enlarged {op : Operation} (known : op.FromText m f)
    (grown : Enlarged m f m' f') : op.FromText m' f' where
  operands := fun p mem => (known.operands p mem).enlarged grown
  constants := known.constants
  targets := by
    intro id mem
    obtain ⟨b, here⟩ := Option.isSome_iff_exists.mp (known.targets id mem)
    obtain ⟨b', there, -⟩ := grown.blocks id b here
    exact Option.isSome_of_eq_some there
  tys := known.tys
  shaped := known.shaped

theorem CallSite.writtenRet_enlarged {site : CallSite} (inside : site.callee.In m f)
    (grown : Enlarged m f m' f') : site.writtenRet m' = site.writtenRet m := by
  cases callee : site.callee with
  | function id =>
    rw [callee] at inside
    obtain ⟨g, here⟩ := Option.isSome_iff_exists.mp inside
    obtain ⟨g', there, -, signature⟩ := grown.functions id g here
    have variadic : g'.variadic = g.variadic := congrArg Signature.variadic signature
    have ret : g'.ret = g.ret := congrArg Signature.ret signature
    simp only [CallSite.writtenRet, variadicCallee?, callee, here, there, Option.filter_some, variadic]
    by_cases more : g.variadic = true
    · rw [if_pos more, if_pos more]
      exact ret
    · rw [if_neg more, if_neg more]
  | _ => simp [CallSite.writtenRet, variadicCallee?, callee]

theorem Operation.writtenTy_enlarged {op : Operation} (known : op.FromText m f)
    (grown : Enlarged m f m' f') : op.writtenTy m' = op.writtenTy m := by
  cases op with
  | call site => exact CallSite.writtenRet_enlarged (known.operands _ List.mem_cons_self) grown
  | invoke site => exact CallSite.writtenRet_enlarged (known.operands _ List.mem_cons_self) grown
  | _ => rfl

end

namespace Tally
variable {s : Settings} {m m' : Module} {f f' : Function} {before : List Instruction}
  {counter : GlobalId} {entry hook : FuncId} {counted : List Function}

theorem Counted.mem_instructions (made : Counted before counter f f') {inst : Instruction} :
    inst ∈ f'.instructions ↔ inst ∈ f.instructions ∨ (f.blocks ≠ [] ∧ inst ∈ before) ∨
      ∃ k < f.blocks.length, inst ∈ increments counter (f.values.length + 2 * k) := by
  have old : ∀ b : Block, inst ∈ b.insts ↔ inst ∈ b.insts.dropLast ∨ inst ∈ b.insts.getLast? := by
    intro b
    rcases List.eq_nil_or_concat b.insts with none | ⟨front, last, whole⟩
    · simp [none]
    · simp [whole, eq_comm]
  have front : f.blocks ≠ [] ↔ 0 < f.blocks.length := List.length_pos_iff.symm
  simp only [Function.instructions, List.mem_flatMap, made.blocks, List.mem_mapIdx, front]
  constructor
  · rintro ⟨_, ⟨k, inside, rfl⟩, mem⟩
    simp only [countedBlock, List.mem_append, Option.mem_toList] at mem
    rcases mem with ((lead | first) | new) | last
    · split at lead
      · next zero => exact .inr (.inl ⟨zero ▸ inside, lead⟩)
      · cases lead
    · exact .inl ⟨_, List.getElem_mem inside, (old _).mpr (.inl first)⟩
    · exact .inr (.inr ⟨k, inside, new⟩)
    · exact .inl ⟨_, List.getElem_mem inside, (old _).mpr (.inr last)⟩
  · rintro (⟨b, among, mem⟩ | ⟨inside, lead⟩ | ⟨k, inside, new⟩)
    · obtain ⟨k, inside, rfl⟩ := List.getElem_of_mem among
      refine ⟨_, ⟨k, inside, rfl⟩, ?_⟩
      simp only [countedBlock, List.mem_append, Option.mem_toList]
      rcases (old _).mp mem with first | last
      · exact .inl (.inl (.inr first))
      · exact .inr last
    · exact ⟨_, ⟨0, inside, rfl⟩, by simp [countedBlock, lead]⟩
    · exact ⟨_, ⟨k, inside, rfl⟩, by simp [countedBlock, new]⟩

/-- The results of a counted function: the old ones and the new values. -/
theorem Counted.mem_results (made : Counted before counter f f')
    (silent : ∀ inst ∈ before, inst.result = none) {id : ValueId} :
    id ∈ f'.results ↔ id ∈ f.results ∨
      ∃ k j, k < f.blocks.length ∧ j < 2 ∧ id = ⟨f.values.length + 2 * k + j⟩ := by
  rw [← f'.definitions_map_fst, ← f.definitions_map_fst, List.mem_map, List.mem_map]
  constructor
  · rintro ⟨⟨id, d⟩, mem, rfl⟩
    rcases (made.mem_definitions silent).mp mem with ⟨old, here, -⟩ | ⟨b, j, here, less, rfl, -⟩
    · exact .inl ⟨_, here, rfl⟩
    · exact .inr ⟨_, j, (List.getElem?_eq_some_iff.mp here).1, less, rfl⟩
  · rintro (⟨⟨id, d⟩, mem, rfl⟩ | ⟨k, j, inside, less, rfl⟩)
    · exact ⟨(id, moved before f d), (made.mem_definitions silent).mpr (.inl ⟨d, mem, rfl⟩), rfl⟩
    · exact ⟨(_, ⟨k, (incrementSite before k f.blocks[k]).index + j⟩),
        (made.mem_definitions silent).mpr (.inr ⟨_, j, List.getElem?_eq_getElem inside, less, rfl,
          rfl⟩), rfl⟩

/-- No result is repeated: an old one is in the old table, and each new value has its own place. -/
theorem Counted.once (made : Counted before counter f f')
    (silent : ∀ inst ∈ before, inst.result = none) (once : f.results.Nodup)
    (known : ∀ id ∈ f.results, id.index < f.values.length) : f'.results.Nodup := by
  have places : f'.definitions.Nodup := by
    refine f'.definitions_ordered.imp ?_
    rintro d _ order rfl
    exact Site.Before.irrefl _ order
  have single : ∀ {id d d'}, (id, d) ∈ f.definitions → (id, d') ∈ f.definitions → d = d' := by
    intro id d d' here there
    rw [← f.definitions_map_fst] at once
    exact congrArg Prod.snd (List.inj_on_of_nodup_map once here there rfl)
  have old : ∀ {id d}, (id, d) ∈ f.definitions → id.index < f.values.length := fun here =>
    known _ (f.definitions_map_fst ▸ List.mem_map_of_mem (f := (·.1)) here)
  rw [← f'.definitions_map_fst]
  refine places.map_on ?_
  rintro ⟨id, d⟩ here ⟨_, d'⟩ there rfl
  refine congrArg (Prod.mk id) ?_
  rcases (made.mem_definitions silent).mp here with ⟨e, mem, rfl⟩ | ⟨b, j, block, less, rfl, index⟩
  · rcases (made.mem_definitions silent).mp there with ⟨e', mem', rfl⟩ | ⟨b, j, block, less, same, -⟩
    · rw [single mem mem']
    · have inside := old mem
      simp only at same
      rw [same] at inside
      simp only at inside
      omega
  · rcases (made.mem_definitions silent).mp there with
      ⟨e', mem', -⟩ | ⟨b', j', block', less', same, index'⟩
    · have inside := old mem'
      simp only at inside
      omega
    · obtain ⟨k, i⟩ := d
      obtain ⟨k', i'⟩ := d'
      simp only [ValueId.mk.injEq] at same block block' index index'
      obtain rfl : k = k' := by omega
      obtain rfl : j = j' := by omega
      obtain rfl := Option.some.inj (block.symm.trans block')
      rw [index, index']

/-- Values that are no results are parameters from before. -/
theorem Counted.value?_cases (made : Counted before counter f f') {id : ValueId} {v : Value}
    (here : f'.value? id = some v) : f.value? id = some v ∨ v.ty = .i64 ∧ v.origin = .instruction ∧
      ∃ k j, k < f.blocks.length ∧ j < 2 ∧ id = ⟨f.values.length + 2 * k + j⟩ := by
  obtain ⟨added, grown, size, fresh⟩ := made.values
  rw [Function.value?, grown, List.getElem?_append] at here
  split at here
  · exact .inl here
  · next behind =>
    obtain ⟨inside, -⟩ := List.getElem?_eq_some_iff.mp here
    obtain ⟨ty, origin⟩ := fresh.typed v (List.mem_of_getElem? here)
    refine .inr ⟨ty, origin, (id.index - f.values.length) / 2, (id.index - f.values.length) % 2,
      ?_, ?_, ?_⟩
    · omega
    · omega
    · cases id
      simp only [ValueId.mk.injEq] at behind ⊢
      omega

/-! Operations that counting adds. -/

private theorem increments_fromText {first : Nat} (slot : (m'.global? counter).isSome)
    (values : first + 1 < f'.values.length) :
    ∀ inst ∈ increments counter first, inst.op.FromText m' f' := by
  have one : (Operand.value ⟨first⟩).In m' f' := Function.value?_isSome.mpr (by simp only; omega)
  have two : (Operand.value ⟨first + 1⟩).In m' f' := Function.value?_isSome.mpr values
  have ptr : (Operand.global counter).In m' f' := slot
  have range : ∀ ty ∈ [Ty.i64], ty.InRange := List.forall_mem_singleton.mpr ⟨by decide, by decide⟩
  intro inst mem
  simp only [increments, List.mem_cons, List.not_mem_nil, or_false] at mem
  obtain rfl | rfl | rfl := mem
  · exact
      { operands := List.forall_mem_singleton.mpr ptr
        constants := fun _ => List.forall_mem_singleton.mpr trivial
        targets := List.forall_mem_nil _
        tys := range
        shaped := trivial }
  · exact
      { operands := List.forall_mem_cons.mpr ⟨one, List.forall_mem_singleton.mpr trivial⟩
        constants := fun _ => List.forall_mem_cons.mpr ⟨trivial, List.forall_mem_singleton.mpr rfl⟩
        targets := List.forall_mem_nil _
        tys := range
        shaped := trivial }
  · exact
      { operands := List.forall_mem_cons.mpr ⟨two, List.forall_mem_singleton.mpr ptr⟩
        constants := fun _ => List.forall_mem_cons.mpr ⟨trivial, List.forall_mem_singleton.mpr trivial⟩
        targets := List.forall_mem_nil _
        tys := range
        shaped := trivial }

theorem Lead.fromText (lead : Lead m' before) : ∀ inst ∈ before, inst.op.FromText m' f' := by
  intro inst mem
  cases lead with
  | none => cases mem
  | @hook hook g found nullary =>
    obtain rfl := List.mem_singleton.mp mem
    exact
      { operands := List.forall_mem_singleton.mpr (Option.isSome_of_eq_some found)
        constants := fun _ => List.forall_mem_singleton.mpr trivial
        targets := List.forall_mem_nil _
        tys := List.forall_mem_singleton.mpr trivial
        shaped := fun _ => by simp }

theorem Counted.blocks_map_name (made : Counted before counter f f') :
    f'.blocks.map (·.name) = f.blocks.map (·.name) := by
  rw [made.blocks]
  exact List.ext_getElem (by simp) fun k inside there => by simp [countedBlock]

/-- The results of an increment have the type that it gives them. -/
theorem Counted.typed_increment (made : Counted before counter f f') {k : Nat}
    (inside : k < f.blocks.length) {inst : Instruction} {id : ValueId}
    (mem : inst ∈ increments counter (f.values.length + 2 * k)) (result : inst.result = some id) :
    ∃ v, f'.value? id = some v ∧ v.origin = .instruction ∧ v.ty = inst.op.resultTy ∧ v.ty ≠ .void := by
  have here := List.getElem?_eq_getElem inside
  simp only [increments, List.mem_cons, List.not_mem_nil, or_false] at mem
  obtain rfl | rfl | rfl := mem
  · obtain ⟨v, there, ty, origin⟩ := made.value?_new here (j := 0) (by omega)
    cases result
    exact ⟨v, there, origin, ty, by rw [ty]; decide⟩
  · obtain ⟨v, there, ty, origin⟩ := made.value?_new here (j := 1) (by omega)
    cases result
    exact ⟨v, there, origin, ty, by rw [ty]; decide⟩
  · cases result

/-- A counted function is what a text could say. -/
theorem Counted.fromText (made : Counted before counter f f') (grown : Enlarged m f m' f')
    (lead : Lead m' before) (slot : (m'.global? counter).isSome) (built : f'.Built)
    (names : ∀ v ∈ f'.values, Unquoted v.name) (known : f.FromText m) : f'.FromText m' := by
  have frame := made.frame
  refine { built, names, name := ?_, ret := ?_, param := ?_, result := ?_
           once := made.once lead.silent known.once known.result_lt, typed := ?_, ops := ?_
           labels := ?_, unquoted := ?_, lead := ?_, attrs := ?_, kept := ?_, trail := ?_ }
  · rw [frame]
    exact known.name
  · rw [frame]
    exact known.ret
  · intro id v here origin
    rcases made.value?_cases here with before | ⟨-, instruction, -⟩
    · rw [frame]
      exact known.param id v before origin
    · exact absurd instruction origin
  · intro id v here origin
    rw [made.mem_results lead.silent]
    rcases made.value?_cases here with before | ⟨-, -, new⟩
    · exact .inl (known.result id v before origin)
    · exact .inr new
  · intro inst mem id result
    rcases made.mem_instructions.mp mem with before | ⟨-, hooks⟩ | ⟨k, inside, new⟩
    · obtain ⟨v, here, typed⟩ := known.typed inst before id result
      exact ⟨v, grown.values id v here, typed⟩
    · rw [lead.silent inst hooks] at result
      cases result
    · exact made.typed_increment inside new result
  · obtain ⟨added, values, size, -⟩ := made.values
    intro inst mem
    rcases made.mem_instructions.mp mem with before | ⟨-, hooks⟩ | ⟨k, inside, new⟩
    · exact (known.ops inst before).enlarged grown
    · exact lead.fromText inst hooks
    · refine increments_fromText slot ?_ inst new
      rw [values, List.length_append]
      omega
  · rw [made.blocks_map_name]
    exact known.labels
  · rw [← List.forall_mem_map (P := Unquoted), made.blocks_map_name, List.forall_mem_map]
    exact known.unquoted
  · rw [frame]
    exact known.lead
  · rw [frame]
    exact known.attrs
  · rw [frame]
    exact known.kept
  · have declared : f'.isDeclaration = f.isDeclaration := by
      have none := congrArg List.isEmpty made.blocks_map_name
      simpa [Function.isDeclaration] using none
    obtain ⟨ts, raw, trail⟩ := known.trail
    refine ⟨ts, ?_, by rwa [declared, show f'.attrs = f.attrs by rw [frame]]⟩
    rw [frame]
    exact raw

/-- The written type of an old value is the same. -/
theorem Counted.writtenTy_eq (made : Counted before counter f f') (grown : Enlarged m f m' f')
    (known : f.FromText m) (known' : f'.FromText m') {id : ValueId}
    (solid : f.writtenTy m id ≠ .void) : f'.writtenTy m' id = f.writtenTy m id := by
  by_cases param : id ∈ f.params
  · have params : f'.params = f.params := by rw [made.frame]
    have inside := known.built.coherent.param_lt param
    rw [Function.writtenTy, Function.writtenTy, if_pos param, params, if_pos param,
      made.value?_old inside]
  · have found : (f.instructions.find? (·.result = some id)).isSome := by
      by_contra none
      rw [Option.not_isSome_iff_eq_none] at none
      rw [Function.writtenTy, if_neg param, none] at solid
      exact solid rfl
    obtain ⟨inst, first⟩ := Option.isSome_iff_exists.mp found
    have mem := List.mem_of_find?_eq_some first
    have result : inst.result = some id := by simpa using List.find?_some first
    calc f'.writtenTy m' id
      _ = inst.op.writtenTy m' := known'.writtenTy_result (made.mem_instructions.mpr (.inl mem)) result
      _ = inst.op.writtenTy m := Operation.writtenTy_enlarged (known.ops inst mem) grown
      _ = f.writtenTy m id := (known.writtenTy_result mem result).symm

/-- It can be restored as the function could before. -/
theorem Counted.restorable (made : Counted before counter f f') (grown : Enlarged m f m' f')
    (lead : Lead m' before) (known : f.FromText m) (known' : f'.FromText m')
    (ok : f.Restorable m) : f'.Restorable m' := by
  have hooks : ∀ inst ∈ before, inst.op.Steady ∧ inst.op.address? = none := by
    intro inst mem
    cases lead with
    | none => cases mem
    | hook =>
      obtain rfl := List.mem_singleton.mp mem
      exact ⟨trivial, rfl⟩
  have added : ∀ first, ∀ inst ∈ increments counter first, inst.op.Steady ∧
      (inst.result.isSome → inst.op.writtenTy m' ≠ .void) ∧
      ∀ id, inst.op.address? ≠ some (.value id) := by
    intro first inst mem
    simp only [increments, List.mem_cons, List.not_mem_nil, or_false] at mem
    obtain rfl | rfl | rfl := mem
    · exact ⟨trivial, fun _ => by simp [Operation.writtenTy, Operation.resultTy, Ty.i64], fun id => by
        simp [Operation.address?]⟩
    · exact ⟨trivial, fun _ => by simp [Operation.writtenTy, Operation.resultTy, Ty.i64], fun id => by
        simp [Operation.address?]⟩
    · exact ⟨trivial, fun some => absurd some (by simp), fun id => by simp [Operation.address?]⟩
  refine ⟨fun inst mem => ?_, fun inst mem some => ?_, fun inst mem id address => ?_⟩
  · rcases made.mem_instructions.mp mem with old | ⟨-, lead⟩ | ⟨k, -, new⟩
    · exact ok.steady inst old
    · exact (hooks inst lead).1
    · exact (added _ inst new).1
  · rcases made.mem_instructions.mp mem with old | ⟨-, hook⟩ | ⟨k, -, new⟩
    · rw [Operation.writtenTy_enlarged (known.ops inst old) grown]
      exact ok.results inst old some
    · rw [lead.silent inst hook] at some
      cases some
    · exact (added _ inst new).2.1 some
  · rcases made.mem_instructions.mp mem with old | ⟨-, lead⟩ | ⟨k, -, new⟩
    · have pointer := ok.addressed inst old id address
      rw [made.writtenTy_eq grown known known' (by rw [pointer]; decide), pointer]
    · rw [(hooks inst lead).2] at address
      cases address
    · exact absurd address ((added _ inst new).2.2 id)

/-! The module as a whole. -/

theorem Module.declare_fromText {hook : String} (unquoted : Unquoted hook) :
    (Function.declare hook .nullary).FromText m := by
  have headed : (Function.declare hook .nullary).Headed :=
    { built := Function.declare_built _ _, blocks := rfl, name := unquoted, ret := trivial, params := rfl
      values := List.forall_mem_nil _, lead := kept_nothing, attrs := rfl, kept := List.forall_mem_nil _ }
  exact headed.declared ⟨[], raw_nothing, List.forall_mem_nil _⟩

theorem CountedModule.textKept (parts : CountedModule s m m' entry hook counted)
    (unquoted : Unquoted s.counter) (kept : m.TextKept) : m'.TextKept := by
  have readable : GlobalReadable (counterGlobal s.counter) :=
    { name := unquoted
      ty := ⟨by decide, by decide⟩
      initial := fun c same => Option.some.inj same ▸ Constant.StableAt.readable rfl
      qualifiers := kept_nothing
      attachments := fun some => absurd rfl some }
  have stable : ∀ c ∈ (counterGlobal s.counter).initial, c.StableAt (counterGlobal s.counter).ty := by
    intro c same
    obtain rfl := Option.some.inj same
    rfl
  have larger : Module.TextKept { m with globals := m.globals ++ [counterGlobal s.counter] } :=
    { kept with
      globals := forall_mem_snoc kept.globals readable
      initials := forall_mem_snoc kept.initials stable }
  rw [parts.whole]
  exact TextKept.functions larger _

theorem CountedModule.fromText (parts : CountedModule s m m' entry hook counted)
    (built : m'.Built) (names : ∀ f' ∈ m'.functions, ∀ v ∈ f'.values, Unquoted v.name)
    (unquoted : Unquoted s.hook) (known : ∀ f ∈ m.functions, f.FromText m) :
    ∀ f' ∈ m'.functions, f'.FromText m' := by
  intro f' mem
  rcases parts.function_cases mem with ⟨k, f, here, -, made, grown⟩ | rfl
  · exact made.fromText grown (parts.lead k) (Option.isSome_of_eq_some parts.global?_counter)
      (built.functions f' mem) (names f' mem) (known f (List.mem_of_getElem? here))
  · exact Module.declare_fromText unquoted

theorem CountedModule.restorable (parts : CountedModule s m m' entry hook counted)
    (known : ∀ f ∈ m.functions, f.FromText m) (known' : ∀ f' ∈ m'.functions, f'.FromText m')
    (ok : m.Restorable) : m'.Restorable where
  functions := by
    intro f' mem
    rcases parts.function_cases mem with ⟨k, f, here, -, made, grown⟩ | rfl
    · have old := List.mem_of_getElem? here
      exact made.restorable grown (parts.lead k) (known f old) (known' f' mem) (ok.functions f old)
    · exact ⟨List.forall_mem_nil _, List.forall_mem_nil _, List.forall_mem_nil _⟩
  named := by
    rw [parts.whole]
    exact ok.named
  nodes := by
    rw [parts.whole]
    exact ok.nodes

/-! Counting again. -/

/-- A module that has the counter is not counted: that is refused, or it is left as it is. -/
theorem instrument_again {id : GlobalId} (entry : s.entry ∈ m.functions.map (·.name))
    (apart : s.hook ≠ s.counter ∧ s.hook ≠ s.entry) (there : m.symbol? s.counter = some (.global id)) :
    instrument { s with onExisting := .fail } m = (.error (.refused (.alreadyCounted s.counter)), m) ∧
      instrument { s with onExisting := .skip } m = (.ok false, m) := by
  have entered : (m.functionNamed? s.entry).isSome := by
    rw [Module.functionNamed?, Option.isSome_map, List.findIdx?_isSome]
    simpa using entry
  obtain ⟨e, named⟩ := Option.isSome_iff_exists.mp entered
  have clash : (decide (s.hook = s.counter) || decide (s.hook = s.entry)) = false := by
    simpa using apart
  have refused : count { s with onExisting := .fail } m =
      (.error (.refused (.alreadyCounted s.counter)), m) := by
    have stop : setUp { s with onExisting := .fail } m =
        (.error (.refused (.alreadyCounted s.counter)), m) := by
      simp [setUp, bind, Edit.read, named, clash, there, Edit.refuse]
    exact Edit.bind_of_error stop
  have left : count { s with onExisting := .skip } m = (.ok false, m) := by
    have skipped : setUp { s with onExisting := .skip } m = (.ok none, m) := by
      simp [setUp, bind, Edit.read, named, clash, there, pure]
    exact Edit.bind_of_ok skipped
  exact ⟨Edit.bind_of_error refused, instrument_eq left⟩

end Tally
end BlockTally
