import BlockTally.Proofs.Wellformed
import BlockTally.Proofs.Listing.Reread
import Mathlib.Data.List.Induction

/-! The verifier as one walk through the code, which adds to a single report and remembers the nodes
that it has reported for the function at hand. Main statement: `Module.verify_eq`, that the walk
reports the defects and the warnings. -/
namespace BlockTally

structure Report where
  defects : List Defect := []
  warnings : List Warning := []
  deriving DecidableEq

/-- The report within a function, with the nodes that were reported for it. -/
structure Walk extends Report where
  reported : List UInt32 := []

namespace Walk

def fault (w : Walk) (found : List Defect) : Walk := { w with defects := w.defects ++ found }

section
variable (m : Module) (f : Function)

/-- A node is reported where it is first attached. -/
def attach (w : Walk) (node : UInt32) : Walk :=
  if !m.hasMetadata node && !w.reported.contains node then
    { w with
      warnings := w.warnings ++ [.brokenDebugInfo f.name node]
      reported := w.reported ++ [node] }
  else w

variable (defs : List (ValueId × Site))

def checkInstruction (b : Block) (site : Site) (inst : Instruction) (w : Walk) : Walk :=
  let w := w.fault (if inst.op.targets.all fun id => (f.block? id).isSome then [] else
    [.unknownBlock f.name b.name])
  let w := inst.op.operands.foldl
    (fun w o => w.fault (operandDefects m f defs b site inst.op.isPhi o)) w
  let w := w.fault (operationDefects m f inst.op)
  match inst.dbg with
  | none => w
  | some node => w.attach m f node

/-- The next instruction of a block, given whether one that is no phi stands before it. -/
def nextInstruction (b : Block) (block : Nat) (state : Walk × Bool) (inst : Instruction)
    (index : Nat) : Walk × Bool :=
  let (w, pastPhis) := state
  if inst.op.isPhi then
    let w := w.fault (if pastPhis then [.misplacedPhi f.name b.name] else [])
    (checkInstruction m f defs b ⟨block, index⟩ inst w, pastPhis)
  else (checkInstruction m f defs b ⟨block, index⟩ inst w, true)

def checkBlock (w : Walk) (b : Block) (block : Nat) : Walk :=
  if b.insts.isEmpty then w.fault [.emptyBlock f.name b.name]
  else
    let w := w.fault (if b.terminator?.isSome then [] else [.missingTerminator f.name b.name])
    let w := w.fault (if b.insts.dropLast.any (·.op.isTerminator) then
      [.terminatorNotLast f.name b.name] else [])
    (b.insts.zipIdx.foldl (fun state p => nextInstruction m f defs b block state p.1 p.2) (w, false)).1

end

/-- A function adds to the report of those before it. -/
def checkFunction (m : Module) (report : Report) (f : Function) : Report :=
  (f.blocks.zipIdx.foldl (fun w (b, block) => checkBlock m f f.definitions w b block)
    { report with }).toReport

end Walk

/-- The functions that have a body. -/
def Module.definedFunctions (m : Module) : List Function := m.functions.filter (!·.isDeclaration)

def Module.verify (m : Module) : Report := m.definedFunctions.foldl (Walk.checkFunction m) {}

namespace Walk

/-- Defects and attached nodes taken into the report, in whichever order they come. -/
def add (m : Module) (f : Function) (defects : List Defect) (nodes : List UInt32) (w : Walk) : Walk :=
  nodes.foldl (attach m f) (w.fault defects)

section
variable {m : Module} {f : Function} {w : Walk}

private theorem fault_nil : w.fault [] = w := by simp [fault]

private theorem fault_fault (found more : List Defect) :
    (w.fault found).fault more = w.fault (found ++ more) := by simp [fault]

private theorem foldl_fault {α : Type} (found : α → List Defect) (xs : List α) (w : Walk) :
    xs.foldl (fun w x => w.fault (found x)) w = w.fault (xs.flatMap found) := by
  induction xs generalizing w with
  | nil => exact fault_nil.symm
  | cons x xs ih => rw [List.foldl_cons, ih, fault_fault, List.flatMap_cons]

/-- Neither part of the report looks at the other. -/
theorem attach_fault (found : List Defect) (node : UInt32) :
    attach m f (w.fault found) node = (attach m f w node).fault found := by
  unfold attach fault
  dsimp only
  split <;> rfl

private theorem foldl_attach_fault (found : List Defect) (nodes : List UInt32) (w : Walk) :
    nodes.foldl (attach m f) (w.fault found) = (nodes.foldl (attach m f) w).fault found := by
  induction nodes generalizing w with
  | nil => rfl
  | cons node nodes ih => rw [List.foldl_cons, attach_fault, ih, List.foldl_cons]

private theorem add_add (found more : List Defect) (nodes others : List UInt32) :
    (w.add m f found nodes).add m f more others = w.add m f (found ++ more) (nodes ++ others) := by
  simp only [add, List.foldl_append, foldl_attach_fault, fault_fault]

private theorem foldl_add {α : Type} (found : α → List Defect) (nodes : α → List UInt32)
    (xs : List α) (w : Walk) : xs.foldl (fun w x => w.add m f (found x) (nodes x)) w =
      w.add m f (xs.flatMap found) (xs.flatMap nodes) := by
  induction xs generalizing w with
  | nil => exact fault_nil.symm
  | cons x xs ih => rw [List.foldl_cons, ih, add_add, List.flatMap_cons, List.flatMap_cons]

variable {defs : List (ValueId × Site)} {b : Block} {block : Nat}

private theorem checkInstruction_eq (site : Site) (inst : Instruction) :
    checkInstruction m f defs b site inst w = w.add m f
      ((if inst.op.targets.all fun id => (f.block? id).isSome then [] else
          [.unknownBlock f.name b.name]) ++
        inst.op.operands.flatMap (operandDefects m f defs b site inst.op.isPhi) ++
        operationDefects m f inst.op) inst.dbg.toList := by
  simp only [checkInstruction, foldl_fault, fault_fault, add]
  cases inst.dbg <;> rfl

/-- The flag says whether all instructions so far are phis. -/
theorem nextInstruction_eq {front back : List Instruction} {inst : Instruction}
    (split : b.insts = front ++ inst :: back) :
    nextInstruction m f defs b block (w, front.any (!·.op.isPhi)) inst front.length =
      (w.add m f (instructionDefects m f defs b ⟨block, front.length⟩ inst) inst.dbg.toList,
        (front ++ [inst]).any (!·.op.isPhi)) := by
  have before : b.insts.take front.length = front := by rw [split, List.take_left]
  simp only [nextInstruction, instructionDefects, before, checkInstruction_eq, List.any_append,
    List.any_cons, List.any_nil, Bool.or_false]
  cases inst.op.isPhi with
  | true =>
    have later := @add_add m f w
      (if front.any (!·.op.isPhi) then [.misplacedPhi f.name b.name] else [])
    simp only [if_true, Bool.true_and, Bool.not_true, Bool.or_false, List.append_assoc]
    rw [← List.nil_append inst.dbg.toList, ← later]
    rfl
  | false => simp

private theorem checkInstructions_eq {front back : List Instruction}
    (split : b.insts = front ++ back) :
    ((back.zipIdx front.length).foldl
      (fun state p => nextInstruction m f defs b block state p.1 p.2)
      (w, front.any (!·.op.isPhi))).1 =
    w.add m f ((back.zipIdx front.length).flatMap fun (inst, i) =>
      instructionDefects m f defs b ⟨block, i⟩ inst) (back.filterMap (·.dbg)) := by
  induction back generalizing front w with
  | nil => exact fault_nil.symm
  | cons inst back ih =>
    have rest : b.insts = (front ++ [inst]) ++ back := by simp [split]
    have length : front.length + 1 = (front ++ [inst]).length := by simp
    rw [List.zipIdx_cons, List.foldl_cons, nextInstruction_eq split, length, ih rest, add_add,
      List.flatMap_cons]
    congr 1
    cases here : inst.dbg <;> simp [here]

private theorem checkBlock_eq : checkBlock m f defs w b block =
    w.add m f (blockDefects m f defs b block) (b.insts.filterMap (·.dbg)) := by
  unfold checkBlock blockDefects
  cases empty : b.insts.isEmpty with
  | true =>
    rw [List.isEmpty_iff.mp empty]
    rfl
  | false =>
    have each := @checkInstructions_eq m f
      ((w.fault (if b.terminator?.isSome then [] else [.missingTerminator f.name b.name])).fault
        (if b.insts.dropLast.any (·.op.isTerminator) then [.terminatorNotLast f.name b.name] else []))
      defs b block [] b.insts (List.nil_append b.insts).symm
    simp only [Bool.false_eq_true, if_false]
    rw [List.append_assoc, ← List.append_assoc]
    refine each.trans ?_
    rw [fault_fault, ← List.nil_append (List.filterMap _ _), ← add_add]
    rfl

end

end Walk

/-! What the walk remembers of the nodes. -/

/-- The nodes that the code of a function attaches, in the order of the code. -/
def Function.attached (f : Function) : List UInt32 := f.instructions.filterMap (·.dbg)

/-- The nodes that are not in the table, each where it comes first. -/
def Module.unknownNodes (m : Module) (nodes : List UInt32) : List UInt32 :=
  nodes.eraseDups.filter (!m.hasMetadata ·)

theorem eraseDups_snoc {α : Type} [DecidableEq α] (xs : List α) (x : α) :
    (xs ++ [x]).eraseDups = if x ∈ xs then xs.eraseDups else xs.eraseDups ++ [x] := by
  rw [List.eraseDups_append]
  by_cases seen : x ∈ xs <;> simp [seen, List.removeAll, List.eraseDups_cons]

theorem Module.unknownNodes_snoc (m : Module) (nodes : List UInt32) (node : UInt32) :
    m.unknownNodes (nodes ++ [node]) = if !m.hasMetadata node && !(m.unknownNodes nodes).contains node
      then m.unknownNodes nodes ++ [node] else m.unknownNodes nodes := by
  have known : (m.unknownNodes nodes).contains node = (decide (node ∈ nodes) && !m.hasMetadata node) := by
    rw [Bool.eq_iff_iff]
    simp [unknownNodes, List.mem_eraseDups]
  rw [known, unknownNodes, eraseDups_snoc, unknownNodes]
  by_cases seen : node ∈ nodes <;> cases table : m.hasMetadata node <;> simp [seen, table]

theorem Walk.foldl_attach {m : Module} {f : Function} (nodes : List UInt32) {w : Walk}
    (fresh : w.reported = []) : nodes.foldl (attach m f) w = { w with
      warnings := w.warnings ++ (m.unknownNodes nodes).map (.brokenDebugInfo f.name)
      reported := m.unknownNodes nodes } := by
  -- From the end: whether a node is reported depends on those in front of it.
  induction nodes using List.reverseRecOn with
  | nil =>
    obtain ⟨report, reported⟩ := w
    obtain rfl : reported = [] := fresh
    simp [Module.unknownNodes]
  | append_singleton nodes node ih =>
    rw [List.foldl_append, ih, List.foldl_cons, List.foldl_nil, attach, m.unknownNodes_snoc]
    split <;> simp

theorem Walk.checkFunction_eq (m : Module) (report : Report) (f : Function) :
    checkFunction m report f = {
      defects := report.defects ++ functionDefects m f
      warnings := report.warnings ++ functionWarnings m f } := by
  have nodes : f.blocks.zipIdx.flatMap (fun p => p.1.insts.filterMap (·.dbg)) = f.attached := by
    rw [Function.attached, Function.instructions, List.filterMap_flatMap]
    conv_rhs => rw [← List.zipIdx_map_fst 0 f.blocks, List.flatMap_map]
  simp only [checkFunction, checkBlock_eq]
  rw [foldl_add (fun p : Block × Nat => blockDefects m f f.definitions p.1 p.2)
    (fun p : Block × Nat => p.1.insts.filterMap (·.dbg)), nodes, add, foldl_attach f.attached rfl]
  rfl

private theorem functionDefects_of_declaration {f : Function} (m : Module)
    (declared : f.isDeclaration = true) : functionDefects m f = [] := by
  simp [functionDefects, List.isEmpty_iff.mp declared]

theorem functionWarnings_of_declaration {f : Function} (m : Module)
    (declared : f.isDeclaration = true) : functionWarnings m f = [] := by
  simp [functionWarnings, List.isEmpty_iff.mp declared]

/-- Declarations may be left out where nothing is said of them. -/
theorem Module.flatMap_definedFunctions {α : Type} (m : Module) {told : Function → List α}
    (silent : ∀ f, f.isDeclaration = true → told f = []) :
    m.definedFunctions.flatMap told = m.functions.flatMap told := by
  rw [definedFunctions]
  induction m.functions with
  | nil => rfl
  | cons f fs ih =>
    cases declared : f.isDeclaration with
    | true => simp [declared, silent f declared, ih]
    | false => simp [declared, ih]

/-- The walk reports just the defects and the warnings. -/
theorem Module.verify_eq (m : Module) : m.verify = ⟨m.defects, m.warnings⟩ := by
  have run : ∀ (fs : List Function) (report : Report), fs.foldl (Walk.checkFunction m) report =
      ⟨report.defects ++ fs.flatMap (functionDefects m),
        report.warnings ++ fs.flatMap (functionWarnings m)⟩ := by
    intro fs
    induction fs with
    | nil => simp
    | cons f fs ih =>
      intro report
      rw [List.foldl_cons, ih, Walk.checkFunction_eq]
      simp
  rw [verify, run, m.flatMap_definedFunctions fun _ => functionDefects_of_declaration m,
    m.flatMap_definedFunctions fun _ => functionWarnings_of_declaration m]
  rfl

end BlockTally
