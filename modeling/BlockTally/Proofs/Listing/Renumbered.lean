import BlockTally.Proofs.Lawful
import BlockTally.Proofs.Listing.Reprinted

/-! The checks of code that is read from its own text. Values have other numbers, and what a variadic
function returns has the type that the function declares. Main statement: `isValid_reread`. -/
namespace BlockTally
open Listing

namespace Operation

variable (m : Module) (number : ValueId → ValueId) (op : Operation)

@[simp] theorem isTerminator_reread : (op.reread m number).isTerminator = op.isTerminator := by
  cases op <;> rfl

@[simp] theorem isPhi_reread : (op.reread m number).isPhi = op.isPhi := by
  cases op <;> rfl

@[simp] theorem successors_reread : (op.reread m number).successors = op.successors := by
  cases op <;> rfl

private theorem operands_reread :
    (op.reread m number).operands = op.positions.map fun p => p.2.reread number p.1 := by
  cases op with
  | ret ty value => cases value <;> rfl
  | _ => simp [reread, operands, positions, CallSite.reread, Function.comp_def]

/-- Each operand of the code that is read again is an old one. -/
theorem exists_operand_of_reread {o : Operand} (mem : o ∈ (op.reread m number).operands) :
    ∃ ty, ∃ old ∈ op.operands, old.reread number ty = o := by
  rw [operands_reread] at mem
  obtain ⟨p, place, same⟩ := List.mem_map.mp mem
  refine ⟨p.1, p.2, ?_, same⟩
  rw [← map_snd_positions]
  exact List.mem_map_of_mem place

@[simp] theorem callSite?_reread :
    (op.reread m number).callSite? = op.callSite?.map (·.reread m number) := by
  cases op <;> rfl

@[simp] theorem address?_reread :
    (op.reread m number).address? = op.address?.map (·.reread number .ptr) := by
  cases op <;> rfl

end Operation

section
variable {number : ValueId → ValueId} {ty : Ty} {o : Operand}

theorem Operand.reread_eq_global {id : GlobalId} (same : o.reread number ty = .global id) :
    o = .global id := by
  cases o <;> first | exact same | cases same

theorem Operand.reread_eq_function {id : FuncId} (same : o.reread number ty = .function id) :
    o = .function id := by
  cases o <;> first | exact same | cases same

theorem Operand.reread_eq_value {id : ValueId} (same : o.reread number ty = .value id) :
    ∃ old, o = .value old ∧ id = number old := by
  cases o with
  | value old => exact ⟨old, rfl, (Operand.value.inj same).symm⟩
  | _ => cases same

end

namespace Function

variable {m : Module} {f : Function}

private theorem has_reread {site : Site} {inst : Instruction} : (f.reread m).Has site inst ↔
    ∃ old, f.Has site old ∧ inst = old.reread m f.number := by
  have blocks : (f.reread m).blocks = f.blocks.map (·.reread m f.number) := rfl
  simp only [Has, blocks, List.getElem?_map, Option.map_eq_some_iff]
  constructor
  · rintro ⟨_, ⟨b, here, rfl⟩, there⟩
    rw [Block.reread, List.getElem?_map] at there
    obtain ⟨old, place, rfl⟩ := Option.map_eq_some_iff.mp there
    exact ⟨old, ⟨b, here, place⟩, rfl⟩
  · rintro ⟨old, ⟨b, here, there⟩, rfl⟩
    exact ⟨_, ⟨b, here, rfl⟩, by rw [Block.reread, List.getElem?_map, there]; rfl⟩

theorem Has.mem {site : Site} {inst : Instruction} (has : f.Has site inst) :
    inst ∈ f.instructions := by
  obtain ⟨b, here, there⟩ := has
  exact mem_instructions.mpr ⟨_, b, _, here, there⟩

private theorem number_injOn {a b : ValueId} (here : a ∈ f.order) (same : f.number a = f.number b) :
    a = b := (List.idxOf_inj here).mp (congrArg ValueId.index same)

private theorem results_reread : (f.reread m).results = f.results.map f.number := by
  have instructions : (f.reread m).instructions = f.instructions.map (·.reread m f.number) := by
    change (f.blocks.map (·.reread m f.number)).flatMap (·.insts) = _
    rw [Function.instructions, List.flatMap_map, List.map_flatMap]
    rfl
  rw [results, results, instructions, List.filterMap_map, List.map_filterMap]
  rfl

theorem FromText.results_nodup_reread (known : f.FromText m) : (f.reread m).results.Nodup := by
  rw [results_reread]
  refine known.once.map_on fun a mem b _ same => number_injOn ?_ same
  exact Function.mem_order.mpr (.inr (mem_mentions_of_results mem))

/-- Memory is reached through values that have the type of a pointer in the text. -/
def Addressed (m : Module) (f : Function) : Prop :=
  ∀ inst ∈ f.instructions, ∀ id, inst.op.address? = some (.value id) → f.writtenTy m id = .ptr

private theorem takes_reread {callee : Function} {call : CallSite} :
    (callee.reread m).Takes (call.reread m f.number) ↔ callee.Takes call := by
  simp [Takes, Function.reread, CallSite.reread]

private theorem addresses_reread {o : Operand} (met : o.Met f) (addresses : f.Addresses o)
    (pointer : ∀ id, o = .value id → f.writtenTy m id = .ptr) :
    (f.reread m).Addresses (o.reread f.number .ptr) := by
  cases o with
  | value id => exact ⟨_, value?_reread met, pointer id rfl⟩
  | constant c =>
    intro width value same
    cases c with
    | int width' value' => exact addresses width' value' rfl
    | _ => cases same
  | _ => trivial

section
variable (known : f.FromText m)
include known

theorem FromText.reaches_reread {id : ValueId} (order : id ∈ f.order) {site : Site}
    {user : Instruction} (reaches : f.Reaches id site user) :
    (f.reread m).Reaches (f.number id) site (user.reread m f.number) := by
  obtain ⟨v, here, defined⟩ := reaches
  refine ⟨_, value?_reread order, fun made => ?_⟩
  have value : id ∉ f.params := by
    intro param
    simp [Function.entry, param] at made
  have origin : v.origin = .instruction := by
    by_contra other
    exact value (known.param id v here other).1
  obtain ⟨d, inst, has, result, before⟩ := defined origin
  refine ⟨d, inst.reread m f.number, has_reread.mpr ⟨inst, has, rfl⟩, ?_, ?_⟩
  · rw [Instruction.reread, result]
    rfl
  · rw [Instruction.reread, Operation.isPhi_reread]
    exact before

theorem FromText.lawfulAt_reread {site : Site} {inst : Instruction} (mem : inst ∈ f.instructions)
    (addressed : f.Addressed m) (lawful : f.LawfulAt m site inst) :
    (f.reread m).LawfulAt m.reread site (inst.reread m f.number) where
  successors := by
    simp only [Instruction.reread, Operation.successors_reread, block?_reread, Option.isSome_map]
    exact lawful.successors
  edges := by
    intro ty incoming phi edge among
    rw [block?_reread, Option.isSome_map]
    cases op : inst.op with
    | phi ty' incoming' =>
      rw [Instruction.reread, op] at phi
      cases phi
      obtain ⟨old, place, rfl⟩ := List.mem_map.mp among
      exact lawful.edges _ _ op old place
    | _ =>
      rw [Instruction.reread, op] at phi
      cases phi
  globals := by
    intro id among
    obtain ⟨ty, old, used, same⟩ := Operation.exists_operand_of_reread _ _ _ among
    obtain rfl := Operand.reread_eq_global same
    rw [Module.global?_reread, Option.isSome_map]
    exact lawful.globals id used
  functions := by
    intro id among
    obtain ⟨ty, old, used, same⟩ := Operation.exists_operand_of_reread _ _ _ among
    obtain rfl := Operand.reread_eq_function same
    rw [Module.function?_reread, Option.isSome_map]
    exact lawful.functions id used
  values := by
    intro id among
    obtain ⟨ty, o, used, same⟩ := Operation.exists_operand_of_reread _ _ _ among
    obtain ⟨old, rfl, rfl⟩ := Operand.reread_eq_value same
    exact known.reaches_reread (mem_order_of_operand mem used) (lawful.values old used)
  calls := by
    intro call site id callee named found
    rw [Instruction.reread, Operation.callSite?_reread] at site
    obtain ⟨old, here, rfl⟩ := Option.map_eq_some_iff.mp site
    rw [Module.function?_reread] at found
    obtain ⟨g, there, rfl⟩ := Option.map_eq_some_iff.mp found
    exact takes_reread.mpr (lawful.calls old here id g (Operand.reread_eq_function named) there)
  returns := by
    intro ty value returns
    cases op : inst.op with
    | ret ty' value' =>
      rw [Instruction.reread, op] at returns
      cases returns
      rw [Option.isSome_map]
      exact lawful.returns _ _ op
    | _ =>
      rw [Instruction.reread, op] at returns
      cases returns
  accesses := by
    intro ptr address
    rw [Instruction.reread, Operation.address?_reread] at address
    obtain ⟨old, here, rfl⟩ := Option.map_eq_some_iff.mp address
    refine addresses_reread ?_ (lawful.accesses old here) fun id same =>
      addressed inst mem id (same ▸ here)
    have operand : old ∈ inst.op.operands := by
      cases op : inst.op <;> simp_all [Operation.address?, Operation.operands]
    cases old with
    | value id => exact mem_order_of_operand mem operand
    | _ => trivial

/-- The rules hold of the code that is read again just if memory is reached through pointers there. -/
theorem FromText.lawful_reread (lawful : f.Lawful m) :
    (f.reread m).Lawful m.reread ↔ f.Addressed m := by
  constructor
  · intro again inst mem id address
    obtain ⟨k, b, i, here, there⟩ := mem_instructions.mp mem
    have has : f.Has ⟨k, i⟩ inst := ⟨b, here, there⟩
    have accesses := (again.instructions ⟨k, i⟩ _ (has_reread.mpr ⟨inst, has, rfl⟩)).accesses
      (.value (f.number id)) (by rw [Instruction.reread, Operation.address?_reread, address]; rfl)
    obtain ⟨v, found, pointer⟩ := accesses
    have operand : .value id ∈ inst.op.operands := by
      cases op : inst.op <;> simp_all [Operation.address?, Operation.operands]
    rw [value?_reread (mem_order_of_operand mem operand)] at found
    rw [← pointer, ← Option.some.inj found]
    rfl
  · intro addressed
    refine ⟨?_, ?_, ?_⟩
    · intro b mem
      obtain ⟨old, among, rfl⟩ := List.mem_map.mp mem
      obtain ⟨front, last, whole, ends, inner⟩ := lawful.ended old among
      refine ⟨front.map (·.reread m f.number), last.reread m f.number, ?_, ?_, ?_⟩
      · simp [Block.reread, whole]
      · simpa [Instruction.reread] using ends
      · simpa [Instruction.reread] using inner
    · intro b mem
      obtain ⟨old, among, rfl⟩ := List.mem_map.mp mem
      obtain ⟨phis, others, whole, all, none⟩ := lawful.phis old among
      refine ⟨phis.map (·.reread m f.number), others.map (·.reread m f.number), ?_, ?_, ?_⟩
      · simp [Block.reread, whole]
      · simpa [Instruction.reread] using all
      · simpa [Instruction.reread] using none
    · intro site inst has
      obtain ⟨old, place, rfl⟩ := has_reread.mp has
      exact known.lawfulAt_reread place.mem addressed (lawful.instructions site old place)

end

end Function

theorem Module.isValid_iff_lawful {m : Module} (once : ∀ f ∈ m.functions, f.results.Nodup) :
    m.isValid = true ↔ ∀ f ∈ m.functions, f.Lawful m := by
  rw [isValid, List.isEmpty_iff, defects, List.flatMap_eq_nil_iff]
  exact forall₂_congr fun f mem => functionDefects_eq_nil_iff (once f mem)

/-- A valid module is valid when it is read again just if memory is reached through pointers then. -/
theorem isValid_reread {m : Module} (known : ∀ f ∈ m.functions, f.FromText m)
    (valid : m.isValid = true) :
    m.reread.isValid = true ↔ ∀ f ∈ m.functions, f.Addressed m := by
  have lawful := (Module.isValid_iff_lawful fun f mem => (known f mem).once).mp valid
  have once : ∀ g ∈ m.reread.functions, g.results.Nodup :=
    List.forall_mem_map.mpr fun f mem => (known f mem).results_nodup_reread
  rw [Module.isValid_iff_lawful once]
  change (∀ g ∈ m.functions.map (·.reread m), g.Lawful m.reread) ↔ _
  rw [List.forall_mem_map]
  exact forall₂_congr fun f mem => (known f mem).lawful_reread (lawful f mem)

end BlockTally
