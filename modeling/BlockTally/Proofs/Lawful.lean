import BlockTally.Proofs.Code.Insertion
import BlockTally.Proofs.Listing.Sound
import Mathlib.Data.List.Nodup

/-! The rules for the body of a function, said of the code itself and not of the checks. Main
statement: `Module.defects_eq_nil_iff`, that a module whose values are each defined once has no
defects if and only if every body keeps the rules. -/
namespace BlockTally

/-- What memory is reached through. -/
def Operation.address? : Operation → Option Operand
  | .load _ ptr _ | .store _ _ ptr _ => some ptr
  | _ => none

namespace Function

/-- The instruction stands at the place. -/
def Has (f : Function) (site : Site) (inst : Instruction) : Prop :=
  ∃ b, f.blocks[site.block]? = some b ∧ b.insts[site.index]? = some inst

/-- The value is a parameter, or the result of an instruction, which stands before the user if both
are in one block. A phi may use what stands behind it. -/
def Reaches (f : Function) (id : ValueId) (site : Site) (user : Instruction) : Prop :=
  ∃ v, f.value? id = some v ∧ (v.origin = .instruction → ∃ d inst, f.Has d inst ∧
    inst.result = some id ∧ (user.op.isPhi = false → d.block = site.block → d.index < site.index))

/-- An operand that a pointer can be taken from. -/
def Addresses (f : Function) : Operand → Prop
  | .value id => ∃ v, f.value? id = some v ∧ v.ty = .ptr
  | .global _ | .function _ => True
  | .constant c => ∀ width value, c ≠ .int width value

/-- The call passes what the callee takes, or more if it is variadic. -/
def Takes (callee : Function) (site : CallSite) : Prop :=
  if callee.variadic then callee.params.length ≤ site.args.length
  else site.args.length = callee.params.length

/-- The rules for an instruction at its place in a function of `m`. -/
structure LawfulAt (m : Module) (f : Function) (site : Site) (inst : Instruction) : Prop where
  successors : ∀ id ∈ inst.op.successors, (f.block? id).isSome
  edges : ∀ ty incoming, inst.op = .phi ty incoming → ∀ edge ∈ incoming, (f.block? edge.2).isSome
  globals : ∀ id, .global id ∈ inst.op.operands → (m.global? id).isSome
  functions : ∀ id, .function id ∈ inst.op.operands → (m.function? id).isSome
  values : ∀ id, .value id ∈ inst.op.operands → f.Reaches id site inst
  calls : ∀ call, inst.op.callSite? = some call → ∀ id callee, call.callee = .function id →
    m.function? id = some callee → callee.Takes call
  returns : ∀ ty value, inst.op = .ret ty value → ty = f.ret ∧ (value.isSome ↔ f.ret ≠ .void)
  accesses : ∀ ptr, inst.op.address? = some ptr → f.Addresses ptr

/-- The rules for the body of a function of `m`. -/
structure Lawful (m : Module) (f : Function) : Prop where
  ended : ∀ b ∈ f.blocks, ∃ front last, b.insts = front ++ [last] ∧ last.op.isTerminator = true ∧
    ∀ inst ∈ front, inst.op.isTerminator = false
  phis : ∀ b ∈ f.blocks, ∃ phis others, b.insts = phis ++ others ∧
    (∀ inst ∈ phis, inst.op.isPhi = true) ∧ ∀ inst ∈ others, inst.op.isPhi = false
  instructions : ∀ site inst, f.Has site inst → f.LawfulAt m site inst

end Function

section
variable {m : Module} {f : Function}

theorem Function.mem_definitions_iff_has {id : ValueId} {d : Site} :
    (id, d) ∈ f.definitions ↔ ∃ inst, f.Has d inst ∧ inst.result = some id := by
  rw [mem_definitions]
  constructor
  · rintro ⟨b, inst, block, place, result⟩
    exact ⟨inst, ⟨b, block, place⟩, result⟩
  · rintro ⟨inst, ⟨b, block, place⟩, result⟩
    exact ⟨b, inst, block, place, result⟩

theorem Function.definitions_map_fst (f : Function) : f.definitions.map (·.1) = f.results := by
  have block : ∀ (insts : List Instruction) (k n : Nat), ((insts.zipIdx n).filterMap fun p =>
      p.1.result.map (·, (⟨k, p.2⟩ : Site))).map (·.1) = insts.filterMap (·.result) := by
    intro insts k n
    calc ((insts.zipIdx n).filterMap fun p => p.1.result.map (·, (⟨k, p.2⟩ : Site))).map (·.1)
      _ = (insts.zipIdx n).filterMap fun p => p.1.result := by
        simp [List.map_filterMap, Option.map_map, Function.comp_def]
      _ = ((insts.zipIdx n).map Prod.fst).filterMap (·.result) := List.filterMap_map.symm
      _ = insts.filterMap (·.result) := by rw [List.zipIdx_map_fst]
  calc f.definitions.map (·.1)
    _ = f.blocks.zipIdx.flatMap fun p => p.1.insts.filterMap (·.result) := by
      simp only [definitions, List.map_flatMap, block]
    _ = (f.blocks.zipIdx.map Prod.fst).flatMap fun b => b.insts.filterMap (·.result) := by
      rw [List.flatMap_map]
    _ = f.results := by rw [List.zipIdx_map_fst, results, instructions, List.filterMap_flatMap]

/-- Where a value is defined once, the definition that counts is the one there is. -/
theorem Function.definition?_eq_some_of_nodup (once : f.results.Nodup) {id : ValueId} {d : Site} :
    definition? f.definitions id = some d ↔ (id, d) ∈ f.definitions := by
  refine ⟨fun last => (definition?_eq_some.mp last).1, fun mem => ?_⟩
  refine definition?_eq_some.mpr ⟨mem, fun d' mem' => ?_⟩
  rw [← definitions_map_fst] at once
  obtain rfl : d = d' := (Prod.mk.inj (List.inj_on_of_nodup_map once mem mem' rfl)).2
  exact Site.Before.irrefl d

/-! Each check, and the rule that it stands for. -/

private theorem valueUsable_iff (once : f.results.Nodup) {site : Site} {user : Instruction}
    {id : ValueId} :
    ValueUsable f site user.op.isPhi id ↔ f.Reaches id site user := by
  simp only [ValueUsable, Function.Reaches, Function.definition?_eq_some_of_nodup once,
    Function.mem_definitions_iff_has]
  constructor
  · rintro ⟨v, here, defined⟩
    refine ⟨v, here, fun made => ?_⟩
    obtain ⟨d, ⟨inst, has, result⟩, order⟩ := defined made
    exact ⟨d, inst, has, result, order⟩
  · rintro ⟨v, here, defined⟩
    refine ⟨v, here, fun made => ?_⟩
    obtain ⟨d, inst, has, result, order⟩ := defined made
    exact ⟨d, ⟨inst, has, result⟩, order⟩

private theorem operandsUsable_iff (once : f.results.Nodup) {site : Site} {user : Instruction} :
    (∀ o ∈ user.op.operands, OperandUsable m f site user.op.isPhi o) ↔
      (∀ id, .global id ∈ user.op.operands → (m.global? id).isSome) ∧
      (∀ id, .function id ∈ user.op.operands → (m.function? id).isSome) ∧
      ∀ id, .value id ∈ user.op.operands → f.Reaches id site user := by
  simp only [← valueUsable_iff once]
  constructor
  · intro usable
    exact ⟨fun id mem => usable _ mem, fun id mem => usable _ mem, fun id mem => usable _ mem⟩
  · rintro ⟨globals, functions, values⟩ o mem
    cases o with
    | value id => exact values id mem
    | global id => exact globals id mem
    | function id => exact functions id mem
    | constant c => trivial

private theorem targetsKnown_iff {op : Operation} : (∀ id ∈ op.targets, (f.block? id).isSome) ↔
    (∀ id ∈ op.successors, (f.block? id).isSome) ∧
      ∀ ty incoming, op = .phi ty incoming → ∀ edge ∈ incoming, (f.block? edge.2).isSome := by
  cases op with
  | phi ty incoming =>
    simp only [Operation.targets, Operation.successors, List.nil_append, List.forall_mem_map]
    refine ⟨fun known => ⟨by simp, ?_⟩, fun known => known.2 ty incoming rfl⟩
    rintro ty' incoming' ⟨⟩
    exact known
  | _ => simp [Operation.targets]

private theorem isPointer_iff {o : Operand} : isPointer f o = true ↔ f.Addresses o := by
  cases o with
  | value id => cases here : f.value? id <;> simp [isPointer, Function.Addresses, here, Ty.isPtr]
  | global id => simp [isPointer, Function.Addresses]
  | function id => simp [isPointer, Function.Addresses]
  | constant c => cases c <;> simp [isPointer, Function.Addresses]

private theorem callDefects_eq_nil {site : CallSite} : callDefects m f site = [] ↔
    ∀ id callee, site.callee = .function id → m.function? id = some callee → callee.Takes site := by
  unfold callDefects
  cases called : site.callee.function?.bind m.function? with
  | none =>
    refine iff_of_true rfl fun id g named here => ?_
    simp [named, Operand.function?, here] at called
  | some g =>
    obtain ⟨id, named, here⟩ := Option.bind_eq_some_iff.mp called
    have direct : site.callee = .function id := by
      cases callee : site.callee <;> simp_all [Operand.function?]
    have fits : (decide (site.args.length = g.params.length) ||
        g.variadic && decide (g.params.length < site.args.length)) = true ↔ g.Takes site := by
      unfold Function.Takes
      cases g.variadic with
      | false => simp
      | true =>
        simp only [Bool.or_eq_true, Bool.true_and, decide_eq_true_eq, if_true]
        omega
    constructor
    · intro none_found id' g' named' there
      obtain rfl : id = id' := by simpa [direct] using named'
      obtain rfl := Option.some.inj (here.symm.trans there)
      refine fits.mp ?_
      by_contra misfit
      simp [misfit] at none_found
    · intro takes
      simp [fits.mpr (takes id g direct here)]

private theorem operationDefects_eq_nil {op : Operation} : operationDefects m f op = [] ↔
    (∀ site, op.callSite? = some site → ∀ id callee, site.callee = .function id →
      m.function? id = some callee → callee.Takes site) ∧
    (∀ ty value, op = .ret ty value → ty = f.ret ∧ (value.isSome ↔ f.ret ≠ .void)) ∧
    ∀ ptr, op.address? = some ptr → f.Addresses ptr := by
  cases op with
  | call site => simp [operationDefects, Operation.callSite?, Operation.address?, callDefects_eq_nil]
  | invoke site => simp [operationDefects, Operation.callSite?, Operation.address?, callDefects_eq_nil]
  | load ty ptr => simp [operationDefects, Operation.callSite?, Operation.address?, ← isPointer_iff]
  | store ty value ptr =>
    simp [operationDefects, Operation.callSite?, Operation.address?, ← isPointer_iff]
  | ret ty value =>
    have valued : (value.isSome != f.ret.isVoid) = true ↔ (value.isSome ↔ f.ret ≠ .void) := by
      cases value <;> simp [Ty.isVoid]
    simp [operationDefects, Operation.callSite?, Operation.address?, valued]
  | _ => simp [operationDefects, Operation.callSite?, Operation.address?]

theorem Block.ended_iff {b : Block} :
    (b.terminator?.isSome ∧ ∀ inst ∈ b.insts.dropLast, inst.op.isTerminator = false) ↔
      ∃ front last, b.insts = front ++ [last] ∧ last.op.isTerminator = true ∧
        ∀ inst ∈ front, inst.op.isTerminator = false := by
  constructor
  · rintro ⟨ends, inner⟩
    obtain ⟨last, ends⟩ := Option.isSome_iff_exists.mp ends
    obtain ⟨leaves, front, whole⟩ := Block.terminator?_eq_some.mp ends
    rw [whole, List.dropLast_concat] at inner
    exact ⟨front, last, whole, leaves, inner⟩
  · rintro ⟨front, last, whole, leaves, inner⟩
    refine ⟨Option.isSome_iff_exists.mpr ⟨last, Block.terminator?_eq_some.mpr ⟨leaves, front, whole⟩⟩, ?_⟩
    rwa [whole, List.dropLast_concat]

/-- What has the property stands behind others that have it if and only if these are a front of the
list. -/
theorem leading_iff {α : Type} {p : α → Bool} {l : List α} :
    (∀ (i : Nat) a, l[i]? = some a → p a = true →
      ∀ (j : Nat) e, j < i → l[j]? = some e → p e = true) ↔
      ∃ front back, l = front ++ back ∧ (∀ a ∈ front, p a = true) ∧ ∀ a ∈ back, p a = false := by
  constructor
  · intro leading
    obtain ⟨front, back, rfl, all, stops⟩ : ∃ front back, l = front ++ back ∧
        (∀ a ∈ front, p a = true) ∧ ∀ first, back[0]? = some first → p first = false := by
      refine ⟨l.takeWhile p, l.dropWhile p, List.takeWhile_append_dropWhile.symm,
        fun a mem => List.mem_takeWhile_imp mem, fun first here => ?_⟩
      have head := List.head?_dropWhile_not p l
      rw [List.head?_eq_getElem?, here] at head
      simpa using head
    refine ⟨front, back, rfl, all, fun a mem => ?_⟩
    obtain ⟨first, others, rfl⟩ := List.exists_cons_of_ne_nil (List.ne_nil_of_mem mem)
    have stop : p first = false := stops first rfl
    rcases List.mem_cons.mp mem with rfl | behind
    · exact stop
    · obtain ⟨n, here⟩ := List.getElem?_of_mem behind
      by_contra leads
      have place : (front ++ first :: others)[front.length + (n + 1)]? = some a := by
        rw [List.getElem?_append_right (by omega), Nat.add_sub_cancel_left]
        exact here
      have led := leading _ a place (by simpa using leads) front.length first (by omega) (by simp)
      rw [stop] at led
      cases led
  · rintro ⟨front, back, rfl, all, others⟩ i a here leads j e before there
    have inside : i < front.length := by
      by_contra behind
      rw [List.getElem?_append_right (by omega)] at here
      simp [others a (List.mem_of_getElem? here)] at leads
    rw [List.getElem?_append_left (by omega)] at there
    exact all e (List.mem_of_getElem? there)

private theorem instructionSound_iff (once : f.results.Nodup) {b : Block} {site : Site}
    {inst : Instruction} :
    InstructionSound m f b site inst ↔
      (inst.op.isPhi = true → ∀ i earlier, i < site.index → b.insts[i]? = some earlier →
        earlier.op.isPhi = true) ∧ f.LawfulAt m site inst := by
  constructor
  · rintro ⟨phi, targets, operands, operation⟩
    obtain ⟨successors, edges⟩ := targetsKnown_iff.mp targets
    obtain ⟨globals, functions, values⟩ := (operandsUsable_iff once).mp operands
    obtain ⟨calls, returns, accesses⟩ := operationDefects_eq_nil.mp operation
    exact ⟨phi, successors, edges, globals, functions, values, calls, returns, accesses⟩
  · rintro ⟨phi, successors, edges, globals, functions, values, calls, returns, accesses⟩
    exact ⟨phi, targetsKnown_iff.mpr ⟨successors, edges⟩,
      (operandsUsable_iff once).mpr ⟨globals, functions, values⟩,
      operationDefects_eq_nil.mpr ⟨calls, returns, accesses⟩⟩

/-- A body has no defects if and only if it keeps the rules, where each value is defined once. -/
theorem functionDefects_eq_nil_iff (once : f.results.Nodup) :
    functionDefects m f = [] ↔ f.Lawful m := by
  rw [functionDefects_eq_nil]
  constructor
  · intro sound
    have block : ∀ b ∈ f.blocks, ∃ k, BlockSound m f b k := by
      intro b mem
      obtain ⟨k, here⟩ := List.getElem?_of_mem mem
      exact ⟨k, sound k b here⟩
    refine ⟨?_, ?_, ?_⟩
    · intro b mem
      obtain ⟨k, known⟩ := block b mem
      exact Block.ended_iff.mp ⟨known.ended, known.inner⟩
    · intro b mem
      obtain ⟨k, known⟩ := block b mem
      refine leading_iff.mp fun i inst here leads j e before there => ?_
      exact (known.instructions i inst here).phi leads j e before there
    · rintro site inst ⟨b, here, there⟩
      have known := (sound site.block b here).instructions site.index inst there
      exact ((instructionSound_iff once).mp known).2
  · intro lawful k b here
    have mem := List.mem_of_getElem? here
    obtain ⟨ends, inner⟩ := Block.ended_iff.mpr (lawful.ended b mem)
    refine ⟨ends, inner, fun i inst there => (instructionSound_iff once).mpr ⟨?_, ?_⟩⟩
    · intro leads j e before at_j
      exact leading_iff.mpr (lawful.phis b mem) i inst there leads j e before at_j
    · exact lawful.instructions ⟨k, i⟩ inst ⟨b, here, there⟩

private theorem lawful_of_declaration (declared : f.blocks = []) : f.Lawful m := by
  refine ⟨by simp [declared], by simp [declared], ?_⟩
  rintro site inst ⟨b, here, -⟩
  simp [declared] at here

/-- A module without repeated results has no defects if and only if each body in it keeps the
rules. -/
theorem Module.defects_eq_nil_iff (once : ∀ f ∈ m.functions, f.results.Nodup) :
    m.defects = [] ↔ ∀ f ∈ m.functions, f.blocks ≠ [] → f.Lawful m := by
  rw [Module.defects, List.flatMap_eq_nil_iff]
  constructor
  · intro none_found f mem _
    exact (functionDefects_eq_nil_iff (once f mem)).mp (none_found f mem)
  · intro lawful f mem
    refine (functionDefects_eq_nil_iff (once f mem)).mpr ?_
    by_cases declared : f.blocks = []
    · exact lawful_of_declaration declared
    · exact lawful f mem declared

end

/-- Prints the numbers from zero on. -/
def printing : Function where
  name := "main"
  ret := .void
  blocks := [
    ⟨"", [{ result := some ⟨0⟩, op := .alloca (.int 32) none }, { op := .br ⟨1⟩ }]⟩,
    ⟨"loop", [
      { result := some ⟨1⟩, op := .phi (.int 32) [(.int 32 0, ⟨0⟩), (.value ⟨2⟩, ⟨1⟩)] },
      { result := some ⟨2⟩, op := .arith .add (.int 32) (.value ⟨1⟩) (.int 32 1) false false },
      { op := .store (.int 32) (.value ⟨2⟩) (.value ⟨0⟩) none },
      { op := .call ⟨.void, .function ⟨1⟩, [(.ptr, .value ⟨0⟩), (.int 32, .value ⟨1⟩)]⟩ },
      { op := .br ⟨1⟩ }]⟩]
  values := [⟨"slot", .ptr, .instruction⟩, ⟨"i", .int 32, .instruction⟩,
    ⟨"next", .int 32, .instruction⟩]

def printingModule : Module where
  name := "m"
  functions := [printing, .declare "print" ⟨.void, [.ptr], true⟩]

theorem defects_eq_nil_iff_printing : (∀ f ∈ printingModule.functions, f.results.Nodup) ∧
    printingModule.defects = [] ∧ printing.Lawful printingModule := by
  have once : ∀ f ∈ printingModule.functions, f.results.Nodup := by decide
  have sound : printingModule.defects = [] := by decide
  have lawful := (Module.defects_eq_nil_iff once).mp sound
  exact ⟨once, sound, lawful printing List.mem_cons_self (by decide)⟩

end BlockTally
