import BlockTally.Listing.Written

/-! What a walk over a module meets: functions, blocks, stack slots, memory accesses, comparisons
and call sites, in the order of the code. -/
namespace BlockTally

structure Located where
  function : Function
  inst : Instruction

inductive Finding where
  | function (name : String)
  | block (name : String)
  | alloca (site : Located)
  | store (site : Located)
  | load (site : Located)
  | compare (site : Located)
  | callee (name : String)
  | indirectCall (site : Located)

namespace Finding

/-- The finding that a call site is; a callee that is no function of the module is not known. -/
def ofCall (m : Module) (f : Function) (inst : Instruction) (site : CallSite) : Finding :=
  match site.callee.function?.bind m.function? with
  | some g => .callee g.name
  | none => .indirectCall ⟨f, inst⟩

def ofInstruction? (m : Module) (detailed : Bool) (f : Function) (inst : Instruction) :
    Option Finding :=
  match inst.op with
  | .alloca .. => some (.alloca ⟨f, inst⟩)
  | .store .. => if detailed then some (.store ⟨f, inst⟩) else none
  | .load .. => if detailed then some (.load ⟨f, inst⟩) else none
  | .icmp .. => if detailed then some (.compare ⟨f, inst⟩) else none
  | .call site | .invoke site .. => some (ofCall m f inst site)
  | _ => none

def line (m : Module) : Finding → Option String
  | .function name => "found function " ++ name
  | .block name => "BasicBlock: " ++ name
  | .alloca site => shown? "found alloca inst: " site
  | .store site => shown? "found store inst: " site
  | .load site => shown? "found load inst: " site
  | .compare site => shown? "found icmp inst: " site
  | .callee name => "found callee: " ++ name
  | .indirectCall site => shown? "found indirect callsite: " site
where
  shown? (label : String) (site : Located) : Option String :=
    (label ++ ·) <$> Listing.instructionText m site.function site.inst

end Finding

namespace Module

def blockFindings (m : Module) (detailed : Bool) (f : Function) (b : Block) : List Finding :=
  (if detailed then [.block b.name] else []) ++
    b.insts.filterMap (Finding.ofInstruction? m detailed f)

def functionFindings (m : Module) (detailed : Bool) (f : Function) : List Finding :=
  .function f.name :: f.blocks.flatMap (m.blockFindings detailed f)

def findings (m : Module) (detailed : Bool) : List Finding :=
  m.functions.flatMap (m.functionFindings detailed)

end Module

end BlockTally
