import BlockTally.Proofs.Listing.Reread
import BlockTally.Proofs.Wellformed

/-! What the text of code without defects can rely on: whatever an instruction names is in its
table. -/
namespace BlockTally
open Listing

section
variable {m : Module} {f : Function}

theorem Function.mem_instructions {inst : Instruction} : inst ∈ f.instructions ↔
    ∃ (k : Nat) (b : Block) (i : Nat), f.blocks[k]? = some b ∧ b.insts[i]? = some inst := by
  rw [Function.instructions, List.mem_flatMap]
  constructor
  · rintro ⟨b, mem, among⟩
    obtain ⟨k, here⟩ := List.mem_iff_getElem?.mp mem
    obtain ⟨i, there⟩ := List.mem_iff_getElem?.mp among
    exact ⟨k, b, i, here, there⟩
  · rintro ⟨k, b, i, here, there⟩
    exact ⟨b, List.mem_of_getElem? here, List.mem_of_getElem? there⟩

/-- A block of the function, and the place where it is. -/
theorem Function.sound_instruction (sound : functionDefects m f = []) {inst : Instruction}
    (mem : inst ∈ f.instructions) : ∃ b site, InstructionSound m f b site inst := by
  obtain ⟨k, b, i, here, there⟩ := mem_instructions.mp mem
  exact ⟨b, ⟨k, i⟩, ((functionDefects_eq_nil m f).mp sound k b here).instructions i inst there⟩

theorem Function.sound_entry (sound : functionDefects m f = []) :
    ∀ b ∈ f.blocks.head?, b.insts ≠ [] := by
  intro b first empty
  have here : f.blocks[0]? = some b := by rw [← List.head?_eq_getElem?]; exact first
  have ended := ((functionDefects_eq_nil m f).mp sound 0 b here).ended
  simp [Block.terminator?, empty] at ended

/-- Every name that the text of a function uses can be written. -/
structure Spellable (m : Module) (f : Function) : Prop where
  globals : ∀ g ∈ m.globals, Unquoted g.name
  functions : ∀ g ∈ m.functions, Unquoted g.name
  values : ∀ v ∈ f.values, Unquoted v.name
  labels : ∀ b ∈ f.blocks, Unquoted b.name

theorem OperandUsable.known (names : Spellable m f) {site : Site} {isPhi : Bool} {o : Operand}
    (usable : OperandUsable m f site isPhi o) : OperandKnown m f o := by
  cases o with
  | value id =>
    obtain ⟨v, here, -⟩ := usable
    exact ⟨v, here, names.values v (List.mem_of_getElem? here)⟩
  | global id =>
    obtain ⟨g, here⟩ := Option.isSome_iff_exists.mp usable
    exact ⟨g, here, names.globals g (List.mem_of_getElem? here)⟩
  | function id =>
    obtain ⟨g, here⟩ := Option.isSome_iff_exists.mp usable
    exact ⟨g, here, names.functions g (List.mem_of_getElem? here)⟩
  | constant c => trivial

theorem InstructionSound.known (names : Spellable m f) {b : Block} {site : Site}
    {inst : Instruction} (sound : InstructionSound m f b site inst)
    (result : ∀ id, inst.result = some id → (f.value? id).isSome) : InstructionKnown m f inst where
  operands := fun o mem => (sound.operands o mem).known names
  targets := fun id mem => by
    obtain ⟨b, here⟩ := Option.isSome_iff_exists.mp (sound.targets id mem)
    exact ⟨b, here, names.labels b (List.mem_of_getElem? here)⟩
  result := fun id has => by
    obtain ⟨v, here⟩ := Option.isSome_iff_exists.mp (result id has)
    exact ⟨v, here, names.values v (List.mem_of_getElem? here)⟩

/-- A `ret` without defects has a value unless its type is `void`. -/
theorem InstructionSound.ret {b : Block} {site : Site} {inst : Instruction} {ty : Ty}
    {value : Option Operand} (sound : InstructionSound m f b site inst)
    (returns : inst.op = .ret ty value) : ty = .void ↔ value = none := by
  have fits := sound.operation
  rw [returns] at fits
  simp only [operationDefects] at fits
  split at fits
  · rename_i both
    obtain ⟨same, valued⟩ := Bool.and_eq_true_iff.mp both
    rw [of_decide_eq_true same]
    cases value <;> simpa [Ty.isVoid] using valued
  · cases fits

/-- Whatever an instruction without defects names is in the table. -/
theorem InstructionSound.mention {b : Block} {site : Site} {inst : Instruction} {id : ValueId}
    (sound : InstructionSound m f b site inst)
    (result : ∀ id, inst.result = some id → (f.value? id).isSome) (mem : id ∈ inst.mentions) :
    (f.value? id).isSome := by
  rcases List.mem_append.mp mem with operand | here
  · obtain ⟨o, among, named⟩ := List.mem_filterMap.mp operand
    cases o with
    | value other =>
      obtain rfl : other = id := by simpa [Operand.value?] using named
      obtain ⟨v, known, -⟩ := sound.operands _ among
      rw [known]
      rfl
    | _ => cases named
  · exact result id (by simpa using here)

theorem Module.functionDefects_of_valid (valid : m.isValid = true) {f : Function}
    (mem : f ∈ m.functions) : functionDefects m f = [] :=
  (functionDefects_eq_nil m f).mpr (Module.isValid_iff.mp valid f mem)

end

end BlockTally
