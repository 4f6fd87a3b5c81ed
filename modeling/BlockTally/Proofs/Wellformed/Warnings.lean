import BlockTally.Proofs.Wellformed.Walk

/-! Which warnings a module has: one for each unknown node of a function that has a body, where the
node is first attached. They have nothing to do with the defects, nor the defects with debug
information. Main statement: `Module.verify_warnings`. -/
namespace BlockTally

/-- The nodes that instructions of a function attach and that are no keys of the table: each once, in
the order in which they are first attached. -/
structure Module.BrokenNodes (m : Module) (f : Function) (nodes : List UInt32) : Prop where
  mem : ∀ node, node ∈ nodes ↔
    (∃ inst ∈ f.instructions, inst.dbg = some node) ∧ ∀ text, (node, text) ∉ m.metadata
  once : nodes.Nodup
  order : nodes.Pairwise fun a b => f.attached.idxOf a < f.attached.idxOf b

private theorem eraseDups_ordered {α : Type} [DecidableEq α] (xs : List α) :
    xs.eraseDups.Pairwise fun a b => xs.idxOf a < xs.idxOf b := by
  induction xs using List.reverseRecOn with
  | nil => exact .nil
  | append_singleton xs x ih =>
    have old : ∀ a ∈ xs.eraseDups, (xs ++ [x]).idxOf a = xs.idxOf a := fun a mem =>
      List.idxOf_append_of_mem (List.mem_eraseDups.mp mem)
    have kept : xs.eraseDups.Pairwise fun a b => (xs ++ [x]).idxOf a < (xs ++ [x]).idxOf b := by
      refine ih.imp_of_mem ?_
      intro a b first second before
      rwa [old a first, old b second]
    rw [eraseDups_snoc]
    split
    · exact kept
    · next new =>
      refine List.pairwise_append.mpr ⟨kept, List.pairwise_singleton _ _, ?_⟩
      intro a mem b last
      obtain rfl := List.mem_singleton.mp last
      rw [old a mem, List.idxOf_append_of_notMem new]
      have inside := List.idxOf_lt_length_of_mem (List.mem_eraseDups.mp mem)
      omega

theorem Module.hasMetadata_eq_false {m : Module} {node : UInt32} :
    m.hasMetadata node = false ↔ ∀ text, (node, text) ∉ m.metadata := by
  simp only [hasMetadata, List.any_eq_false, beq_iff_eq, Prod.forall]
  constructor
  · intro absent text mem
    exact absent node text mem rfl
  · rintro absent node' text mem rfl
    exact absent text mem

theorem Module.brokenNodes_unknownNodes (m : Module) (f : Function) :
    m.BrokenNodes f (m.unknownNodes f.attached) := by
  have order : (m.unknownNodes f.attached).Pairwise fun a b =>
      f.attached.idxOf a < f.attached.idxOf b := (eraseDups_ordered f.attached).filter _
  refine ⟨?_, ?_, order⟩
  · intro node
    rw [unknownNodes, List.mem_filter, List.mem_eraseDups, Function.attached, List.mem_filterMap,
      Bool.not_eq_true', hasMetadata_eq_false]
  · refine order.imp ?_
    rintro a _ before rfl
    exact Nat.lt_irrefl _ before

/-! Warnings depend on nothing else. -/

/-- Every function that has a body, by its name, with the nodes that it attaches. -/
def Module.attachments (m : Module) : List (String × List UInt32) :=
  m.definedFunctions.map fun f => (f.name, f.attached)

theorem Module.warnings_eq_flatMap (m : Module) : m.warnings = m.definedFunctions.flatMap fun f =>
    (m.unknownNodes f.attached).map (.brokenDebugInfo f.name) :=
  (m.flatMap_definedFunctions fun _ => functionWarnings_of_declaration m).symm

theorem Module.warnings_congr {m m' : Module} (attached : m'.attachments = m.attachments)
    (keys : ∀ node, m'.hasMetadata node = m.hasMetadata node) : m'.warnings = m.warnings := by
  have table : m'.unknownNodes = m.unknownNodes := by
    funext nodes
    exact congrArg (nodes.eraseDups.filter ·) (funext fun node => congrArg (!·) (keys node))
  have told : ∀ m : Module, m.warnings = m.attachments.flatMap fun (name, nodes) =>
      (m.unknownNodes nodes).map (.brokenDebugInfo name) := by
    intro m
    rw [warnings_eq_flatMap, attachments, List.flatMap_map]
  rw [told, told, attached, table]

/-! Defects without debug information. -/

def Instruction.withoutDebug (inst : Instruction) : Instruction := { inst with dbg := none }

def Block.withoutDebug (b : Block) : Block :=
  { b with insts := b.insts.map Instruction.withoutDebug }

def Function.withoutDebug (f : Function) : Function :=
  { f with blocks := f.blocks.map Block.withoutDebug }

/-- The same code with nothing attached and an empty table. -/
def Module.withoutDebug (m : Module) : Module :=
  { m with functions := m.functions.map Function.withoutDebug, metadata := [] }

section
variable (m : Module) (f : Function) (defs : List (ValueId × Site)) (b : Block) (site : Site)

theorem Module.function?_withoutDebug (id : FuncId) :
    m.withoutDebug.function? id = (m.function? id).map Function.withoutDebug := List.getElem?_map

theorem Function.definitions_withoutDebug : f.withoutDebug.definitions = f.definitions := by
  simp only [definitions, withoutDebug, List.zipIdx_map, List.flatMap_map, Prod.map,
    Block.withoutDebug, List.filterMap_map]
  rfl

private theorem operandDefects_withoutDebug (isPhi : Bool) (o : Operand) :
    operandDefects m.withoutDebug f.withoutDebug defs b.withoutDebug site isPhi o =
      operandDefects m f defs b site isPhi o := by
  cases o with
  | function id => simp only [operandDefects, m.function?_withoutDebug, Option.isSome_map]; rfl
  | _ => rfl

private theorem callDefects_withoutDebug (call : CallSite) :
    callDefects m.withoutDebug f.withoutDebug call = callDefects m f call := by
  unfold callDefects
  cases call.callee with
  | function id =>
    simp only [Operand.function?, Option.bind_some, m.function?_withoutDebug]
    cases m.function? id <;> rfl
  | _ => rfl

private theorem operationDefects_withoutDebug (op : Operation) :
    operationDefects m.withoutDebug f.withoutDebug op = operationDefects m f op := by
  cases op with
  | call site | invoke site => exact callDefects_withoutDebug m f site
  | _ => rfl

private theorem instructionDefects_withoutDebug (inst : Instruction) :
    instructionDefects m.withoutDebug f.withoutDebug defs b.withoutDebug site inst.withoutDebug =
      instructionDefects m f defs b site inst := by
  have before : (b.withoutDebug.insts.take site.index).any (!·.op.isPhi) =
      (b.insts.take site.index).any (!·.op.isPhi) := by
    rw [Block.withoutDebug, ← List.map_take, List.any_map]
    rfl
  have known : ∀ id, (f.withoutDebug.block? id).isSome = (f.block? id).isSome := fun id => by
    simp [Function.block?, Function.withoutDebug]
  have operands : operandDefects m.withoutDebug f.withoutDebug defs b.withoutDebug site =
      operandDefects m f defs b site := by
    funext isPhi o
    exact operandDefects_withoutDebug m f defs b site isPhi o
  simp only [instructionDefects, before, known, operands, Instruction.withoutDebug,
    operationDefects_withoutDebug]
  rfl

private theorem blockDefects_withoutDebug (block : Nat) :
    blockDefects m.withoutDebug f.withoutDebug defs b.withoutDebug block =
      blockDefects m f defs b block := by
  have ended : b.withoutDebug.terminator?.isSome = b.terminator?.isSome := by
    simp only [Block.terminator?, Block.withoutDebug, List.getLast?_map]
    cases b.insts.getLast? with
    | none => rfl
    | some last => cases terminates : last.op.isTerminator <;>
        simp [Option.filter, Instruction.withoutDebug, terminates]
  have inner : b.withoutDebug.insts.dropLast.any (·.op.isTerminator) =
      b.insts.dropLast.any (·.op.isTerminator) := by
    rw [Block.withoutDebug, ← List.map_dropLast, List.any_map]
    rfl
  have empty : b.withoutDebug.insts.isEmpty = b.insts.isEmpty := by simp [Block.withoutDebug]
  have placed : b.withoutDebug.insts.zipIdx =
      b.insts.zipIdx.map (Prod.map Instruction.withoutDebug id) := List.zipIdx_map
  rw [blockDefects, empty, ended, inner, placed, List.flatMap_map]
  simp only [Prod.map, instructionDefects_withoutDebug, id_eq]
  rfl

private theorem functionDefects_withoutDebug :
    functionDefects m.withoutDebug f.withoutDebug = functionDefects m f := by
  have placed : f.withoutDebug.blocks.zipIdx =
      f.blocks.zipIdx.map (Prod.map Block.withoutDebug id) := List.zipIdx_map
  simp only [functionDefects, f.definitions_withoutDebug]
  rw [placed, List.flatMap_map]
  simp only [Prod.map, blockDefects_withoutDebug, id_eq]

end

theorem Module.defects_withoutDebug (m : Module) : m.withoutDebug.defects = m.defects := by
  rw [defects, show m.withoutDebug.functions = m.functions.map Function.withoutDebug from rfl,
    List.flatMap_map]
  simp only [functionDefects_withoutDebug]
  rfl

/-- The verifier's single walk reports the defects and the warnings of a module. The warnings are the
broken nodes of each function that has a body. Modules with the same attachments and the same keys in
their tables have the same warnings, whatever else is wrong with them, and modules that differ only in
debug information have the same defects. -/
theorem Module.verify_warnings (m : Module) :
    m.verify = ⟨m.defects, m.warnings⟩ ∧
    (∃ nodes : Function → List UInt32, (∀ f, m.BrokenNodes f (nodes f)) ∧
      m.verify.warnings = m.definedFunctions.flatMap fun f =>
        (nodes f).map (.brokenDebugInfo f.name)) ∧
    (∀ m' : Module, m'.attachments = m.attachments →
      (∀ node, m'.hasMetadata node = m.hasMetadata node) → m'.verify.warnings = m.verify.warnings) ∧
    ∀ m' : Module, m'.withoutDebug = m.withoutDebug → m'.verify.defects = m.verify.defects := by
  refine ⟨m.verify_eq, ⟨fun f => m.unknownNodes f.attached, m.brokenNodes_unknownNodes, ?_⟩, ?_, ?_⟩
  · rw [verify_eq, warnings_eq_flatMap]
  · intro m' attached keys
    rw [verify_eq, verify_eq]
    exact warnings_congr attached keys
  · intro m' same
    rw [verify_eq, verify_eq]
    exact (m'.defects_withoutDebug.symm.trans (congrArg defects same)).trans m.defects_withoutDebug

/-- Functions that attach the same nodes whatever their bodies end with. -/
def attaching (ending : List Instruction) : Module where
  name := "m"
  functions := [body "f" [7, 1, 7, 9], .declare "g" .nullary, body "h" [9, 7]]
  metadata := [(1, "!{}")]
where
  body (name : String) (nodes : List UInt32) : Function :=
    { name, ret := .void
      blocks := [⟨"", nodes.map (fun node => { op := .alloca .i64 none, dbg := some node }) ++ ending⟩] }

theorem Module.verify_warnings_attaching :
    (attaching []).verify.warnings = (attaching [{ op := .ret .void none }]).verify.warnings ∧
    (attaching []).verify.defects ≠ (attaching [{ op := .ret .void none }]).verify.defects ∧
    (attaching []).verify.warnings = [.brokenDebugInfo "f" 7, .brokenDebugInfo "f" 9,
      .brokenDebugInfo "h" 9, .brokenDebugInfo "h" 7] ∧
    Module.verify { attaching [] with metadata := [] } ≠ (attaching []).verify ∧
    (Module.verify { attaching [] with metadata := [] }).defects = (attaching []).verify.defects := by
  obtain ⟨-, -, warnings, -⟩ := Module.verify_warnings (attaching [{ op := .ret .void none }])
  obtain ⟨-, -, -, defects⟩ := Module.verify_warnings (attaching [])
  exact ⟨warnings (attaching []) rfl fun _ => rfl, by decide, by decide, by decide, defects _ rfl⟩

end BlockTally
