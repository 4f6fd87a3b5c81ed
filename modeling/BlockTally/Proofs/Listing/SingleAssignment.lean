import BlockTally.Proofs.Listing.Modules
import BlockTally.Proofs.Listing.Parsed
import BlockTally.Proofs.Listing.Sound

/-! A module that is read is resolved: every value comes from one place, with the type in the table,
and every id that the code uses is in its table, so that the module can be printed. Main statement:
`parse_singleAssignment`. -/
namespace BlockTally
open Listing Text

/-- Each value of an instruction is the result of one instruction, of the type in the table, and what
the code uses is in the tables. -/
structure Function.SingleAssignment (m : Module) (f : Function) : Prop where
  defined : ∀ id v, f.value? id = some v → v.origin = .instruction → f.results.count id = 1
  parameter : ∀ id v, f.value? id = some v → v.origin ≠ .instruction → f.results.count id = 0
  params : ∀ id ∈ f.params, (f.value? id).isSome ∧ f.results.count id = 0
  typed : ∀ inst ∈ f.instructions, ∀ id, inst.result = some id →
    ∃ v, f.value? id = some v ∧ v.origin = .instruction ∧ v.ty = inst.op.resultTy
  operands : ∀ inst ∈ f.instructions, ∀ o ∈ inst.op.operands, o.In m f
  targets : ∀ inst ∈ f.instructions, ∀ id ∈ inst.op.targets, (f.block? id).isSome

section
variable {m : Module} {f : Function}

namespace Function.FromText

private theorem mem_results (known : f.FromText m) {id : ValueId} :
    id ∈ f.results ↔ ∃ v, f.value? id = some v ∧ v.origin = .instruction := by
  constructor
  · intro mem
    obtain ⟨inst, among, result⟩ := List.mem_filterMap.mp mem
    obtain ⟨v, here, origin, -⟩ := known.typed inst among id result
    exact ⟨v, here, origin⟩
  · rintro ⟨v, here, origin⟩
    exact known.result id v here origin

theorem result_lt (known : f.FromText m) : ∀ id ∈ f.results, id.index < f.values.length := by
  intro id mem
  obtain ⟨v, here, -⟩ := known.mem_results.mp mem
  exact (List.getElem?_eq_some_iff.mp here).1

private theorem params_origin (known : f.FromText m) {id : ValueId} (mem : id ∈ f.params) :
    ∃ v, f.value? id = some v ∧ v.origin ≠ .instruction ∧ v.name ≠ "" := by
  obtain ⟨k, here⟩ := List.getElem?_of_mem mem
  obtain ⟨v, found, origin, name⟩ := known.built.coherent.param k id here
  exact ⟨v, found, by simp [origin], name⟩

private theorem not_mem_results (known : f.FromText m) {id : ValueId} {v : Value}
    (here : f.value? id = some v) (origin : v.origin ≠ .instruction) : id ∉ f.results := by
  intro mem
  obtain ⟨w, there, same⟩ := known.mem_results.mp mem
  obtain rfl := Option.some.inj (here.symm.trans there)
  exact origin same

theorem singleAssignment (known : f.FromText m) : f.SingleAssignment m where
  defined := fun id v here origin =>
    List.count_eq_one_of_mem known.once (known.result id v here origin)
  parameter := fun id v here origin =>
    List.count_eq_zero.mpr (known.not_mem_results here origin)
  params := by
    intro id mem
    obtain ⟨v, here, origin, -⟩ := known.params_origin mem
    exact ⟨by rw [here]; rfl, List.count_eq_zero.mpr (known.not_mem_results here origin)⟩
  typed := by
    intro inst mem id result
    obtain ⟨v, here, origin, ty, -⟩ := known.typed inst mem id result
    exact ⟨v, here, origin, ty⟩
  operands := by
    intro inst mem o among
    rw [← Operation.map_snd_positions] at among
    obtain ⟨p, place, rfl⟩ := List.mem_map.mp among
    exact (known.ops inst mem).operands p place
  targets := fun inst mem => (known.ops inst mem).targets

/-- Whatever the code mentions is in the table. -/
theorem mentioned (known : f.FromText m) {id : ValueId} (mem : id ∈ f.mentions) :
    (f.value? id).isSome := by
  obtain ⟨inst, among, mention⟩ := List.mem_flatMap.mp mem
  rcases List.mem_append.mp mention with operand | result
  · obtain ⟨o, used, named⟩ := List.mem_filterMap.mp operand
    have inside := known.singleAssignment.operands inst among o used
    cases o with
    | value other => exact Option.some.inj named ▸ inside
    | _ => cases named
  · obtain ⟨v, here, -⟩ := known.typed inst among id (by simpa using result)
    rw [here]
    rfl

theorem numbered (known : f.FromText m) : f.Numbered where
  distinct := known.built.coherent.distinct
  known := by
    intro id mem
    rcases List.mem_append.mp mem with param | mention
    · exact (known.singleAssignment.params id param).1
    · exact known.mentioned mention
  once := by
    refine List.nodup_append.mpr ⟨known.built.coherent.separate, known.once, ?_⟩
    rintro id param _ result rfl
    obtain ⟨v, here, origin, -⟩ := known.params_origin param
    exact known.not_mem_results here origin result

/-- The first line can be written and read again. -/
theorem header (known : f.FromText m) : HeaderReadable f where
  name := known.name
  ret := known.ret
  numbered := known.numbered
  params := by
    intro id mem
    obtain ⟨v, here, origin, name⟩ := known.params_origin mem
    exact ⟨v, here, (known.param id v here origin).2, name, fun _ =>
      known.names v (List.mem_of_getElem? here)⟩
  attrs := by
    intro position inside
    rw [← known.attrs] at inside
    rw [Attributes.param, List.getElem?_eq_getElem inside]
    exact known.kept _ (List.getElem_mem inside)
  lead := known.lead

theorem instructionKnown (known : f.FromText m) (globals : ∀ g ∈ m.globals, Unquoted g.name)
    (functions : ∀ g ∈ m.functions, Unquoted g.name) {inst : Instruction}
    (mem : inst ∈ f.instructions) : InstructionKnown m f inst where
  operands := by
    intro o among
    have inside := known.singleAssignment.operands inst mem o among
    cases o with
    | value id =>
      obtain ⟨v, here⟩ := Option.isSome_iff_exists.mp inside
      exact ⟨v, here, known.names v (List.mem_of_getElem? here)⟩
    | global id =>
      obtain ⟨g, here⟩ := Option.isSome_iff_exists.mp inside
      exact ⟨g, here, globals g (List.mem_of_getElem? here)⟩
    | function id =>
      obtain ⟨g, here⟩ := Option.isSome_iff_exists.mp inside
      exact ⟨g, here, functions g (List.mem_of_getElem? here)⟩
    | constant c => trivial
  targets := by
    intro id among
    obtain ⟨b, here⟩ := Option.isSome_iff_exists.mp ((known.ops inst mem).targets id among)
    exact ⟨b, here, known.unquoted b (List.mem_of_getElem? here)⟩
  result := by
    intro id result
    obtain ⟨v, here, -⟩ := known.typed inst mem id result
    exact ⟨v, here, known.names v (List.mem_of_getElem? here)⟩

theorem printed (known : f.FromText m) (globals : ∀ g ∈ m.globals, Unquoted g.name)
    (functions : ∀ g ∈ m.functions, Unquoted g.name) : (functionText m f).isSome := by
  by_cases declared : f.blocks = []
  · obtain ⟨text, written, -⟩ := yields_declaration [] (m := m) (M := { name := "" })
      (B := fun _ => True) known.header known.trail declared rfl
    rw [written]
    rfl
  · obtain ⟨text, written, -⟩ := yields_definition [] (m := m) (M := { name := "" })
      (B := fun _ => True) known.header known.trail known.unquoted
      (fun inst mem => known.instructionKnown globals functions mem) declared rfl
    rw [written]
    rfl

private theorem defined (known : f.FromText m) {id : ValueId} {v : Value}
    (here : f.value? id = some v)
    (origin : v.origin = .instruction) : (definition? f.definitions id).isSome := by
  obtain ⟨inst, among, result⟩ := List.mem_filterMap.mp (known.result id v here origin)
  obtain ⟨k, b, i, block, place⟩ := Function.mem_instructions.mp among
  exact Function.definition?_isSome.mpr
    ⟨⟨k, i⟩, Function.mem_definitions.mpr ⟨b, inst, block, place, result⟩⟩

end Function.FromText

/-- An id is named that is in no table. -/
def Defect.Unresolved : Defect → Prop
  | .unknownBlock .. | .undefinedValue .. | .unknownSymbol .. => True
  | _ => False

section
variable {b : Block} {site : Site} {inst : Instruction}

private theorem resolved_operand (known : f.FromText m) {isPhi : Bool} {o : Operand}
    (inside : o.In m f) :
    ∀ d ∈ operandDefects m f f.definitions b site isPhi o, ¬ d.Unresolved := by
  cases o with
  | value id =>
    obtain ⟨v, here⟩ := Option.isSome_iff_exists.mp inside
    simp only [operandDefects, valueDefects, here]
    split
    · simp
    · rename_i origin
      obtain ⟨d, last⟩ := Option.isSome_iff_exists.mp (known.defined here (not_not.mp origin))
      simp only [last]
      split <;> simp [Defect.Unresolved]
  | global id =>
    have inside : (m.global? id).isSome = true := inside
    simp [operandDefects, inside]
  | function id =>
    have inside : (m.function? id).isSome = true := inside
    simp [operandDefects, inside]
  | constant c => simp [operandDefects]

private theorem resolved_operation (op : Operation) :
    ∀ d ∈ operationDefects m f op, ¬ d.Unresolved := by
  have call : ∀ site, ∀ d ∈ callDefects m f site, ¬ d.Unresolved := by
    intro site
    unfold callDefects
    split
    · simp
    · dsimp only
      split <;> simp [Defect.Unresolved]
  cases op with
  | call site => exact call site
  | invoke site => exact call site
  | ret | load | store =>
    simp only [operationDefects]
    split <;> simp [Defect.Unresolved]
  | _ => simp [operationDefects]

private theorem resolved_instruction (known : f.FromText m) (mem : inst ∈ f.instructions) :
    ∀ d ∈ instructionDefects m f f.definitions b site inst, ¬ d.Unresolved := by
  have assigned := known.singleAssignment
  intro d among
  simp only [instructionDefects, List.mem_append, List.mem_flatMap] at among
  rcases among with ((phi | target) | ⟨o, used, operand⟩) | operation
  · split at phi
    · rw [List.mem_singleton.mp phi]
      simp [Defect.Unresolved]
    · cases phi
  · have all : (inst.op.targets.all fun id => (f.block? id).isSome) = true :=
      List.all_eq_true.mpr (assigned.targets inst mem)
    rw [if_pos all] at target
    cases target
  · exact resolved_operand known (assigned.operands inst mem o used) d operand
  · exact resolved_operation inst.op d operation

private theorem resolved_block (known : f.FromText m) (mem : b ∈ f.blocks) (block : Nat) :
    ∀ d ∈ blockDefects m f f.definitions b block, ¬ d.Unresolved := by
  intro d among
  unfold blockDefects at among
  split at among
  · rw [List.mem_singleton.mp among]
    simp [Defect.Unresolved]
  · simp only [List.mem_append, List.mem_flatMap] at among
    rcases among with (ended | inner) | ⟨⟨inst, i⟩, place, instruction⟩
    · split at ended
      · cases ended
      · rw [List.mem_singleton.mp ended]
        simp [Defect.Unresolved]
    · split at inner
      · rw [List.mem_singleton.mp inner]
        simp [Defect.Unresolved]
      · cases inner
    · have among : inst ∈ f.instructions :=
        List.mem_flatMap.mpr ⟨b, mem, List.mem_of_getElem? (List.mem_zipIdx_iff_getElem?.mp place)⟩
      exact resolved_instruction known among d instruction

end

/-- What is read can be entered again when it is written, whatever becomes of the bodies, if its nodes
consist of whole tokens. -/
theorem Module.TextKept.enterable (kept : m.TextKept) (flat : Flat m.name) (built : m.Built)
    (known : ∀ f ∈ m.functions, f.FromText m) (named : ∀ node ∈ m.namedMetadata, KeptNode node.2)
    (nodes : ∀ node ∈ m.metadata, KeptNode node.2) : Enterable m where
  name := flat
  sourceFilename := kept.sourceFilename
  datalayout := kept.datalayout
  triple := kept.triple
  distinct := built.coherent.distinct
  ordered := built.coherent.ordered
  comdats := kept.comdats
  globals := kept.globals
  functions := fun f mem => ⟨(known f mem).header, (known f mem).trail, (known f mem).unquoted,
    fun _ among => (known f mem).instructionKnown (fun g here => (kept.globals g here).name)
      (fun g here => (known g here).name) among⟩
  groups := kept.groups
  named := fun node mem => ⟨(kept.named node mem).1, named node mem⟩
  nodes := nodes

private theorem resolved_module (known : ∀ f ∈ m.functions, f.FromText m) :
    ∀ d ∈ m.defects, ¬ d.Unresolved := by
  intro d mem
  obtain ⟨f, among, defect⟩ := List.mem_flatMap.mp mem
  obtain ⟨⟨b, block⟩, place, here⟩ := List.mem_flatMap.mp defect
  have inside := List.mem_of_getElem? (List.mem_zipIdx_iff_getElem?.mp place)
  exact resolved_block (known f among) inside block d here

/-- A module that is read is in single-assignment form and resolved: no check finds an unknown block,
value or symbol, and there is a text of it. -/
theorem parse_singleAssignment {name text : String} (ok : parse name text = .ok m) :
    (∀ f ∈ m.functions, f.SingleAssignment m) ∧
    (∀ function block, .unknownBlock function block ∉ m.defects ∧
      .undefinedValue function block ∉ m.defects ∧ .unknownSymbol function ∉ m.defects) ∧
    (moduleText m).isSome := by
  obtain ⟨-, -, kept, known⟩ := parse_read ok
  have resolved := resolved_module known
  have names : ∀ g ∈ m.functions, Unquoted g.name := fun g mem => (known g mem).name
  refine ⟨fun f mem => (known f mem).singleAssignment, fun function block => ⟨?_, ?_, ?_⟩, ?_⟩
  · exact fun mem => resolved _ mem trivial
  · exact fun mem => resolved _ mem trivial
  · exact fun mem => resolved _ mem trivial
  · rw [moduleText_eq fun f mem =>
      (known f mem).printed (fun g among => (kept.globals g among).name) names]
    rfl

end

/-- A loop that uses its counter before it is defined, and at another type. -/
def earlyUse : String :=
  "define i32 @f() \x7b
entry:
  br label %loop
loop:
  %i = phi i64 [ 0, %entry ], [ %j, %loop ]
  %j = add i32 %i, 1
  br label %loop
\x7d
"

/-- The counter is entered first, and has the type of its definition. -/
def earlyUseRead : Module where
  name := "m"
  functions := [{
    name := "f"
    ret := .int 32
    blocks := [
      ⟨"entry", [{ op := .br ⟨1⟩ }]⟩,
      ⟨"loop", [
        { result := some ⟨1⟩, op := .phi (.int 64) [(.int 64 0, ⟨0⟩), (.value ⟨0⟩, ⟨1⟩)] },
        { result := some ⟨0⟩, op := .arith .add (.int 32) (.value ⟨1⟩) (.int 32 1) false false },
        { op := .br ⟨1⟩ }]⟩]
    values := [⟨"j", .int 32, .instruction⟩, ⟨"i", .int 64, .instruction⟩] }]

set_option maxRecDepth 1000 in
theorem parse_singleAssignment_earlyUse : parse "m" earlyUse = .ok earlyUseRead ∧
    (∀ f ∈ earlyUseRead.functions, f.SingleAssignment earlyUseRead) ∧
    (∀ function block, .unknownBlock function block ∉ earlyUseRead.defects ∧
      .undefinedValue function block ∉ earlyUseRead.defects ∧
      .unknownSymbol function ∉ earlyUseRead.defects) ∧
    (moduleText earlyUseRead).isSome := by
  have read : parse "m" earlyUse = .ok earlyUseRead := by
    refine (parse_ofList "m" _).trans ?_
    decide +kernel
  exact ⟨read, parse_singleAssignment read⟩

end BlockTally
