import BlockTally.Wellformed

/-! When a module has no defects, said of its parts. Main statements: `Module.isValid_iff`, and
`instructionDefects_eq_nil` for a single instruction. -/
namespace BlockTally

/-- The order of the code. -/
def Site.Before (a b : Site) : Prop := a.block < b.block ∨ a.block = b.block ∧ a.index < b.index

theorem Site.Before.irrefl (a : Site) : ¬ a.Before a := by simp [Before]

theorem Site.Before.asymm {a b : Site} (before : a.Before b) : ¬ b.Before a := by
  unfold Before at *
  omega

theorem Site.before_total (a b : Site) : a = b ∨ a.Before b ∨ b.Before a := by
  obtain ⟨block, index⟩ := a
  obtain ⟨block', index'⟩ := b
  simp only [Before, Site.mk.injEq]
  omega

theorem Function.mem_definitions {f : Function} {id : ValueId} {d : Site} :
    (id, d) ∈ f.definitions ↔ ∃ b inst, f.blocks[d.block]? = some b ∧
      b.insts[d.index]? = some inst ∧ inst.result = some id := by
  simp only [definitions, List.mem_flatMap, List.mem_filterMap, Prod.exists,
    List.mem_zipIdx_iff_getElem?, Option.map_eq_some_iff, Prod.mk.injEq]
  constructor
  · rintro ⟨b, block, here, inst, index, there, _, defines, rfl, rfl⟩
    exact ⟨b, inst, here, there, defines⟩
  · rintro ⟨b, inst, here, there, defines⟩
    exact ⟨b, d.block, here, inst, d.index, there, id, defines, rfl, rfl⟩

theorem Function.definitions_ordered (f : Function) :
    f.definitions.Pairwise fun a b => a.2.Before b.2 := by
  have indices : ∀ (insts : List Instruction) (n block : Nat),
      ((insts.zipIdx n).filterMap fun p =>
        p.1.result.map (·, (⟨block, p.2⟩ : Site))).Pairwise fun a b => a.2.Before b.2 := by
    intro insts n block
    rw [List.pairwise_filterMap]
    have apart : (insts.zipIdx n).Pairwise fun a b => a.2 < b.2 := by
      have sorted := List.pairwise_lt_range' (s := n) (n := insts.length)
      rwa [← List.zipIdx_map_snd, List.pairwise_map] at sorted
    refine apart.imp ?_
    intro a b before p here q there
    simp only [Option.map_eq_some_iff] at here there
    obtain ⟨_, -, rfl⟩ := here
    obtain ⟨_, -, rfl⟩ := there
    exact .inr ⟨rfl, before⟩
  rw [definitions, List.pairwise_flatMap]
  refine ⟨fun p _ => indices _ _ _, ?_⟩
  have apart : f.blocks.zipIdx.Pairwise fun a b => a.2 < b.2 := by
    have sorted := List.pairwise_lt_range' (s := 0) (n := f.blocks.length)
    rwa [← List.zipIdx_map_snd, List.pairwise_map] at sorted
  refine apart.imp ?_
  intro a b before p here q there
  simp only [List.mem_filterMap, Option.map_eq_some_iff] at here there
  obtain ⟨_, -, _, -, rfl⟩ := here
  obtain ⟨_, -, _, -, rfl⟩ := there
  exact .inl before

private theorem definition?_eq_some_iff_append {defs : List (ValueId × Site)} {id : ValueId}
    {d : Site} : definition? defs id = some d ↔
      ∃ front back, defs = front ++ (id, d) :: back ∧ ∀ e ∈ back, e.1 ≠ id := by
  simp only [definition?, Option.map_eq_some_iff, List.find?_eq_some_iff_append]
  constructor
  · rintro ⟨⟨id', d'⟩, ⟨same, front, back, split, others⟩, rfl⟩
    obtain rfl : id' = id := by simpa using same
    refine ⟨back.reverse, front.reverse, ?_, ?_⟩
    · simpa using congrArg List.reverse split
    · intro e mem
      simpa using others e (List.mem_reverse.mp mem)
  · rintro ⟨front, back, rfl, others⟩
    refine ⟨(id, d), ⟨by simp, back.reverse, front.reverse, by simp, ?_⟩, rfl⟩
    intro e mem
    simpa using others e (List.mem_reverse.mp mem)

/-- The definition that counts is the last in the order of the code. -/
theorem Function.definition?_eq_some {f : Function} {id : ValueId} {d : Site} :
    definition? f.definitions id = some d ↔ (id, d) ∈ f.definitions ∧
      ∀ d', (id, d') ∈ f.definitions → ¬ d.Before d' := by
  have ordered := f.definitions_ordered
  rw [definition?_eq_some_iff_append]
  constructor
  · rintro ⟨front, back, whole, others⟩
    rw [whole] at ordered ⊢
    refine ⟨by simp, ?_⟩
    intro d' mem
    rcases List.mem_append.mp mem with earlier | later
    · exact ((List.pairwise_append.mp ordered).2.2 _ earlier _ List.mem_cons_self).asymm
    · rcases List.mem_cons.mp later with same | later
      · cases same
        exact Site.Before.irrefl d
      · exact absurd rfl (others _ later)
  · rintro ⟨mem, last⟩
    obtain ⟨front, back, whole⟩ := List.append_of_mem mem
    refine ⟨front, back, whole, ?_⟩
    rintro ⟨id', d'⟩ later rfl
    rw [whole] at ordered last
    have before : d.Before d' :=
      (List.pairwise_cons.mp (List.pairwise_append.mp ordered).2.1).1 _ later
    exact last d' (by simp [later]) before

theorem Function.definition?_isSome {f : Function} {id : ValueId} :
    (definition? f.definitions id).isSome = true ↔ ∃ d, (id, d) ∈ f.definitions := by
  simp only [definition?, Option.isSome_map, List.find?_isSome, List.mem_reverse, Prod.exists,
    beq_iff_eq]
  constructor
  · rintro ⟨_, d, mem, rfl⟩
    exact ⟨d, mem⟩
  · rintro ⟨d, mem⟩
    exact ⟨id, d, mem, rfl⟩

section
variable (m : Module) (f : Function)

/-- The value may be used at the place: it is a parameter, or an instruction defines it, which
stands before the place if it is in the same block and the user is no phi. -/
def ValueUsable (site : Site) (isPhi : Bool) (id : ValueId) : Prop :=
  ∃ v, f.value? id = some v ∧ (v.origin = .instruction → ∃ d,
    definition? f.definitions id = some d ∧
      (isPhi = false → d.block = site.block → d.index < site.index))

def OperandUsable (site : Site) (isPhi : Bool) : Operand → Prop
  | .value id => ValueUsable f site isPhi id
  | .global id => (m.global? id).isSome
  | .function id => (m.function? id).isSome
  | .constant _ => True

/-- An instruction without defects, at a place in a block. -/
structure InstructionSound (b : Block) (site : Site) (inst : Instruction) : Prop where
  phi : inst.op.isPhi = true → ∀ i earlier, i < site.index → b.insts[i]? = some earlier →
    earlier.op.isPhi = true
  targets : ∀ id ∈ inst.op.targets, (f.block? id).isSome
  operands : ∀ o ∈ inst.op.operands, OperandUsable m f site inst.op.isPhi o
  operation : operationDefects m f inst.op = []

/-- A block without defects: instructions that are sound, of which the last and only the last is a
terminator. -/
structure BlockSound (b : Block) (block : Nat) : Prop where
  ended : b.terminator?.isSome
  inner : ∀ inst ∈ b.insts.dropLast, inst.op.isTerminator = false
  instructions : ∀ i inst, b.insts[i]? = some inst → InstructionSound m f b ⟨block, i⟩ inst

private theorem valueDefects_eq_nil {b : Block} {site : Site} {isPhi : Bool} {id : ValueId} :
    valueDefects f f.definitions b site isPhi id = [] ↔ ValueUsable f site isPhi id := by
  unfold valueDefects ValueUsable
  cases f.value? id with
  | none => simp
  | some v =>
    by_cases param : v.origin = .instruction
    · cases definition? f.definitions id with
      | none => simp [param]
      | some d => cases isPhi <;> simp [param]
    · simp [param]

private theorem operandDefects_eq_nil {b : Block} {site : Site} {isPhi : Bool} {o : Operand} :
    operandDefects m f f.definitions b site isPhi o = [] ↔ OperandUsable m f site isPhi o := by
  cases o with
  | value id => exact valueDefects_eq_nil f
  | constant => exact ⟨fun _ => trivial, fun _ => rfl⟩
  | _ => simp only [operandDefects, OperandUsable, ite_eq_left_iff, reduceCtorEq, imp_false,
      Bool.not_eq_true, Bool.not_eq_false]

theorem instructionDefects_eq_nil {b : Block} {site : Site} {inst : Instruction} :
    instructionDefects m f f.definitions b site inst = [] ↔ InstructionSound m f b site inst := by
  have earlier : (∀ e ∈ b.insts.take site.index, e.op.isPhi = true) ↔
      ∀ i e, i < site.index → b.insts[i]? = some e → e.op.isPhi = true := by
    constructor
    · intro all i e before here
      exact all e (List.mem_of_getElem? (by rwa [List.getElem?_take_of_lt before]))
    · intro all e mem
      obtain ⟨i, here⟩ := List.getElem?_of_mem mem
      rw [List.getElem?_take] at here
      split at here
      · next before => exact all i e before here
      · cases here
  simp only [instructionDefects, List.append_eq_nil_iff, List.flatMap_eq_nil_iff,
    operandDefects_eq_nil]
  constructor
  · rintro ⟨⟨⟨phi, targets⟩, operands⟩, operation⟩
    refine ⟨?_, by simpa [Option.isSome_iff_ne_none] using targets, operands, operation⟩
    intro is_phi
    rw [← earlier]
    simpa [is_phi] using phi
  · rintro ⟨phi, targets, operands, operation⟩
    refine ⟨⟨⟨?_, by simpa [Option.isSome_iff_ne_none] using targets⟩, operands⟩, operation⟩
    rw [← earlier] at phi
    simpa using phi

private theorem blockDefects_eq_nil {b : Block} {block : Nat} :
    blockDefects m f f.definitions b block = [] ↔ BlockSound m f b block := by
  unfold blockDefects
  by_cases empty : b.insts = []
  · refine iff_of_false (by simp [empty]) ?_
    rintro ⟨ended, -, -⟩
    simp [Block.terminator?, empty] at ended
  · simp only [List.isEmpty_iff, empty, if_false, List.append_eq_nil_iff,
      List.flatMap_eq_nil_iff, Prod.forall, List.mem_zipIdx_iff_getElem?,
      instructionDefects_eq_nil]
    constructor
    · rintro ⟨⟨ended, inner⟩, instructions⟩
      refine ⟨by simpa [Option.isSome_iff_ne_none] using ended, by simpa using inner, ?_⟩
      intro i inst here
      exact instructions inst i here
    · rintro ⟨ended, inner, instructions⟩
      refine ⟨⟨by simpa [Option.isSome_iff_ne_none] using ended, by simpa using inner⟩, ?_⟩
      intro inst i here
      exact instructions i inst here

theorem functionDefects_eq_nil :
    functionDefects m f = [] ↔ ∀ k b, f.blocks[k]? = some b → BlockSound m f b k := by
  simp only [functionDefects, List.flatMap_eq_nil_iff, Prod.forall,
    List.mem_zipIdx_iff_getElem?, blockDefects_eq_nil]
  exact forall_comm

end

theorem Module.isValid_iff {m : Module} : m.isValid = true ↔
    ∀ f ∈ m.functions, ∀ k b, f.blocks[k]? = some b → BlockSound m f b k := by
  simp only [isValid, List.isEmpty_iff, defects, List.flatMap_eq_nil_iff, functionDefects_eq_nil]

end BlockTally
