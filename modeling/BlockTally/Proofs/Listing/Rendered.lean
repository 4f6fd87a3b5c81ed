import BlockTally.Proofs.Listing.Mentioned
import BlockTally.Proofs.Listing.Sound

/-! When code has a text: whatever it names has to be in its table. Main statements:
`moduleText_isSome`, and `isValid_rendering` for a module without defects, in which only the results
of instructions can be missing. -/
namespace BlockTally
open Listing

@[simp] theorem any_regardless {α : Type} (x : Option α) (known : Bool) :
    (x.any fun _ => known) = (x.isSome && known) := by
  cases x <;> rfl

theorem mapM_isSome {α β : Type} {text : α → Option β} {xs : List α} :
    (xs.mapM text).isSome ↔ ∀ x ∈ xs, (text x).isSome := by
  induction xs with
  | nil => simp
  | cons x xs ih =>
    rw [List.forall_mem_cons, ← ih]
    simp [Option.isSome_bind]

section
variable {m : Module} {f : Function}

@[simp] theorem valueText_isSome {id : ValueId} :
    (valueText f id).isSome = (f.value? id).isSome := by
  simp [valueText, Option.isSome_bind]

@[simp] theorem blockText_isSome {id : BlockId} :
    (blockText f id).isSome = (f.block? id).isSome := by
  simp [blockText, Option.isSome_bind]

@[simp] theorem labelText_isSome {id : BlockId} :
    (labelText f id).isSome = (f.block? id).isSome := by
  simp [labelText, Option.isSome_bind]

@[simp] theorem operandText_isSome {o : Operand} : (operandText m f o).isSome ↔ o.In m f := by
  cases o <;> simp [operandText, Operand.In, Option.isSome_bind]

@[simp] theorem pairText_isSome {ty : Ty} {lhs rhs : Operand} :
    (pairText m f ty lhs rhs).isSome ↔ lhs.In m f ∧ rhs.In m f := by
  simp [pairText, Option.isSome_bind]

private theorem edgeText_isSome {edge : Operand × BlockId} :
    (edgeText m f edge).isSome ↔ edge.1.In m f ∧ (f.block? edge.2).isSome := by
  simp [edgeText, Option.isSome_bind]

/-- The type before a callee needs no more than its name does. -/
theorem calleeTyText_isSome {site : CallSite} (known : site.callee.In m f) :
    (calleeTyText m site).isSome := by
  unfold calleeTyText
  cases callee : site.callee with
  | function id => simpa [callee, Operand.In, Option.isSome_bind] using known
  | _ => rfl

private theorem callSiteText_isSome {site : CallSite} : (callSiteText m f site).isSome ↔
    ∀ o ∈ site.callee :: site.args.map (·.2), o.In m f := by
  simp only [callSiteText, Option.bind_eq_bind, Option.isSome_bind, Option.pure_def,
    Option.isSome_some, any_regardless, Bool.and_true, Bool.and_eq_true, mapM_isSome,
    operandText_isSome, List.forall_mem_cons, List.forall_mem_map]
  constructor
  · rintro ⟨args, -, callee⟩
    exact ⟨callee, args⟩
  · rintro ⟨callee, args⟩
    exact ⟨args, calleeTyText_isSome callee, callee⟩

theorem operationText_isSome {op : Operation} : (operationText m f op).isSome ↔
    (∀ o ∈ op.operands, o.In m f) ∧ ∀ id ∈ op.targets, (f.block? id).isSome := by
  cases op with
  | phi ty incoming =>
    have edges : (incoming.mapM (edgeText m f)).isSome ↔
        ∀ edge ∈ incoming, edge.1.In m f ∧ (f.block? edge.2).isSome := by
      simp only [mapM_isSome, edgeText_isSome]
    simp only [operationText, Option.bind_eq_bind, Option.isSome_bind, Option.pure_def,
      Option.isSome_some, any_regardless, Bool.and_true, edges, Operation.operands,
      Operation.targets, Operation.successors, List.nil_append, List.forall_mem_map]
    exact forall₂_and
  | ret ty value =>
    cases value <;> simp [operationText, Operation.operands, Operation.targets,
      Operation.successors, Option.isSome_bind]
  | call site =>
    simpa [operationText, Operation.operands, Operation.targets, Operation.successors,
      Option.isSome_bind] using callSiteText_isSome
  | invoke site normal unwind =>
    have call := @callSiteText_isSome m f site
    simp only [operationText, Option.bind_eq_bind, Option.isSome_bind, Option.pure_def,
      Option.isSome_some, any_regardless, Bool.and_true, Bool.and_eq_true, labelText_isSome, call,
      Operation.operands, Operation.targets, Operation.successors, List.append_nil]
    simp
  | _ =>
    simp [operationText, Operation.operands, Operation.targets, Operation.successors,
      Option.isSome_bind]

theorem instructionText_isSome {inst : Instruction} : (instructionText m f inst).isSome ↔
    (∀ id, inst.result = some id → (f.value? id).isSome) ∧
      (operationText m f inst.op).isSome := by
  rw [instructionText_eq]
  cases result : inst.result <;> simp [resultText, Option.isSome_bind]

private theorem blockLines_isSome {isEntry : Bool} {b : Block} :
    (blockLines m f isEntry b).isSome ↔ ∀ inst ∈ b.insts, (instructionText m f inst).isSome := by
  rw [← mapM_isSome]
  simp [blockLines, Option.isSome_bind]

theorem headText_isSome : (headText f).isSome ↔ ∀ id ∈ f.params, (f.value? id).isSome := by
  have params : ∀ p ∈ f.params.zipIdx,
      (paramText f p.2 p.1).isSome = (f.value? p.1).isSome := by
    intro p _
    simp [paramText, Option.isSome_bind]
  simp only [headText, Option.bind_eq_bind, Option.isSome_bind, Option.pure_def,
    Option.isSome_some, any_regardless, Bool.and_true, mapM_isSome]
  constructor
  · intro known id mem
    obtain ⟨k, here⟩ := List.getElem?_of_mem mem
    have among : (id, k) ∈ f.params.zipIdx := List.mem_zipIdx_iff_getElem?.mpr here
    exact params _ among ▸ known _ among
  · intro known p among
    rw [params p among]
    exact known p.1 (List.mem_of_getElem? (List.mem_zipIdx_iff_getElem?.mp among))

theorem functionText_isSome : (functionText m f).isSome ↔
    (∀ id ∈ f.params, (f.value? id).isSome) ∧
      ∀ inst ∈ f.instructions, (instructionText m f inst).isSome := by
  rw [← headText_isSome]
  unfold functionText Function.instructions
  cases f.blocks with
  | nil => simp [Option.isSome_bind]
  | cons entry blocks =>
    have each : (blocks.mapM (blockLines m f false)).isSome ↔
        ∀ b ∈ blocks, ∀ inst ∈ b.insts, (instructionText m f inst).isSome := by
      simp only [mapM_isSome, blockLines_isSome]
    simp only [Option.bind_eq_bind, Option.isSome_bind, Option.pure_def, Option.isSome_some,
      any_regardless, Bool.and_true, Bool.and_eq_true, blockLines_isSome, each,
      List.forall_mem_flatMap, List.forall_mem_cons]
    tauto

/-- A module has a text if and only if whatever its code names is in its table. -/
theorem moduleText_isSome : (moduleText m).isSome ↔ ∀ f ∈ m.functions, (functionText m f).isSome := by
  simp only [moduleText, Option.bind_eq_bind, Option.isSome_bind, Option.pure_def,
    Option.isSome_some, any_regardless, Bool.and_true, mapM_isSome]

/-! Code without defects. -/

theorem OperandUsable.inside {site : Site} {isPhi : Bool} {o : Operand}
    (usable : OperandUsable m f site isPhi o) : o.In m f := by
  cases o with
  | value id =>
    obtain ⟨v, here, -⟩ := usable
    simp [Operand.In, here]
  | _ => exact usable

theorem ValueUsable.result {site : Site} {isPhi : Bool} {id : ValueId}
    (usable : ValueUsable f site isPhi id) :
    ∃ v, f.value? id = some v ∧ (v.origin = .instruction → id ∈ f.results) := by
  obtain ⟨v, here, defined⟩ := usable
  refine ⟨v, here, fun made => ?_⟩
  obtain ⟨d, last, -⟩ := defined made
  obtain ⟨b, inst, block, place, result⟩ :=
    Function.mem_definitions.mp (Function.definition?_eq_some.mp last).1
  exact List.mem_filterMap.mpr
    ⟨inst, Function.mem_instructions.mpr ⟨_, b, _, block, place⟩, result⟩

theorem InstructionSound.operationText {b : Block} {site : Site} {inst : Instruction}
    (sound : InstructionSound m f b site inst) : (operationText m f inst.op).isSome :=
  operationText_isSome.mpr ⟨fun o mem => (sound.operands o mem).inside, sound.targets⟩

theorem instructionText_isSome_of_sound (sound : functionDefects m f = []) {inst : Instruction}
    (mem : inst ∈ f.instructions) : (instructionText m f inst).isSome ↔
      ∀ id, inst.result = some id → (f.value? id).isSome := by
  obtain ⟨b, site, known⟩ := Function.sound_instruction sound mem
  rw [instructionText_isSome]
  exact and_iff_left known.operationText

/-- What an operation without defects uses is in its table, and if an instruction makes it, it is the
result of one. What an instruction calls its own result is not looked at: for want of such an entry,
and for nothing else, an instruction has no text, and neither has the module. -/
theorem isValid_rendering (built : m.Built) (valid : m.isValid = true) :
    (∀ f ∈ m.functions, ∀ inst ∈ f.instructions,
      (∀ id, .value id ∈ inst.op.operands →
        ∃ v, f.value? id = some v ∧ (v.origin = .instruction → id ∈ f.results)) ∧
      ((instructionText m f inst).isSome ↔
        ∀ id, inst.result = some id → (f.value? id).isSome)) ∧
    ((moduleText m).isSome ↔ ∀ f ∈ m.functions, ∀ id ∈ f.results, (f.value? id).isSome) := by
  have sound : ∀ f ∈ m.functions, functionDefects m f = [] := fun f mem =>
    Module.functionDefects_of_valid valid mem
  refine ⟨fun f mem inst among => ⟨fun id used => ?_,
    instructionText_isSome_of_sound (sound f mem) among⟩, ?_⟩
  · obtain ⟨b, site, known⟩ := Function.sound_instruction (sound f mem) among
    exact ValueUsable.result (known.operands _ used)
  · rw [moduleText_isSome]
    refine forall₂_congr fun f mem => ?_
    have params : ∀ id ∈ f.params, (f.value? id).isSome := fun id param =>
      Function.value?_isSome.mpr ((built.coherent.functions f mem).param_lt param)
    rw [functionText_isSome, and_iff_right params]
    constructor
    · intro texts id result
      obtain ⟨inst, among, bears⟩ := List.mem_filterMap.mp result
      exact (instructionText_isSome_of_sound (sound f mem) among).mp (texts inst among) id bears
    · intro known inst among
      refine (instructionText_isSome_of_sound (sound f mem) among).mpr fun id bears => ?_
      exact known id (List.mem_filterMap.mpr ⟨inst, among, bears⟩)

end

/-- Two slots whose results bear one number, which no value has. -/
def stray (name : String) : Function where
  name
  ret := .void
  blocks := [⟨"", [{ result := some ⟨7⟩, op := .alloca .i64 none },
    { result := some ⟨7⟩, op := .alloca .i64 none }, { op := .ret .void none }]⟩]

private theorem stray_built (name : String) :
    Module.Built { name := "m", functions := [stray name] } := by
  have steps : Function.Steps { name, ret := .void } (stray name) :=
    .tail (.single (.addBlock _ "")) (.setBlock _ ⟨0⟩ ⟨"", _⟩)
  exact .addFunction (.new "m") ⟨name, .void, steps⟩
    (Module.addFunction_eq_ok.mpr ⟨List.not_mem_nil, rfl, rfl⟩)

/-- No check finds that the results are not in the table and not distinct. -/
theorem stray_unnoticed : Module.Built { name := "m", functions := [stray "main"] } ∧
    Module.isValid { name := "m", functions := [stray "main"] } = true ∧
    (stray "main").results = [⟨7⟩, ⟨7⟩] ∧ (stray "main").value? ⟨7⟩ = none ∧
    moduleText { name := "m", functions := [stray "main"] } = none :=
  ⟨stray_built "main", by decide, rfl, rfl, rfl⟩

theorem isValid_rendering_stray : Module.Built { name := "m", functions := [stray "main"] } ∧
    Module.isValid { name := "m", functions := [stray "main"] } = true ∧
    ¬ (moduleText { name := "m", functions := [stray "main"] }).isSome := by
  have valid : Module.isValid { name := "m", functions := [stray "main"] } = true := by decide
  obtain ⟨-, text⟩ := isValid_rendering (stray_built "main") valid
  refine ⟨stray_built "main", valid, fun some => ?_⟩
  have known := text.mp some (stray "main") List.mem_cons_self ⟨7⟩ List.mem_cons_self
  cases known

end BlockTally
