import BlockTally.Findings.Finding
import Mathlib.Data.List.Forall2

/-! What a report lists. In detail it is every function, each with its blocks, each of these with one
finding for every instruction of a kind that is found; in brief it is the same without the details.
Main statement: `Module.findings_listed`. -/
namespace BlockTally

/-- Only a report in detail has it. -/
def Finding.isDetail : Finding → Bool
  | .block _ | .store _ | .load _ | .compare _ => true
  | .function _ | .alloca _ | .callee _ | .indirectCall _ => false

/-- The kinds of instructions that are found. -/
def Operation.isFound : Operation → Bool
  | .alloca .. | .store .. | .load .. | .icmp .. | .call .. | .invoke .. => true
  | _ => false

/-- The finding that an instruction of a function is. A call is its callee, if that is a function of
the module. -/
inductive Finding.Is (m : Module) (f : Function) (inst : Instruction) : Finding → Prop
  | alloca {ty align} : inst.op = .alloca ty align → Is m f inst (.alloca ⟨f, inst⟩)
  | store {ty value ptr align} : inst.op = .store ty value ptr align → Is m f inst (.store ⟨f, inst⟩)
  | load {ty ptr align} : inst.op = .load ty ptr align → Is m f inst (.load ⟨f, inst⟩)
  | compare {pred ty lhs rhs} : inst.op = .icmp pred ty lhs rhs → Is m f inst (.compare ⟨f, inst⟩)
  | callee {site id g} : inst.op.callSite? = some site → site.callee = .function id →
    m.function? id = some g → Is m f inst (.callee g.name)
  | indirectCall {site} : inst.op.callSite? = some site →
    (∀ id, site.callee = .function id → m.function? id = none) →
      Is m f inst (.indirectCall ⟨f, inst⟩)

/-- The block, then what is found in it. -/
def Block.Listed (m : Module) (f : Function) (b : Block) (xs : List Finding) : Prop :=
  ∃ found, xs = .block b.name :: found ∧
    List.Forall₂ (Finding.Is m f) (b.insts.filter (·.op.isFound)) found

/-- The function, then its blocks. -/
def Function.Listed (m : Module) (f : Function) (xs : List Finding) : Prop :=
  ∃ parts : List (List Finding), xs = .function f.name :: parts.flatten ∧
    List.Forall₂ (Block.Listed m f) f.blocks parts

def Module.Listed (m : Module) (xs : List Finding) : Prop :=
  ∃ parts : List (List Finding), xs = parts.flatten ∧
    List.Forall₂ (Function.Listed m) m.functions parts

namespace Finding

variable {m : Module} {f : Function} {inst : Instruction} {site : CallSite}

private theorem ofInstruction?_call (call : inst.op.callSite? = some site) (detailed : Bool) :
    ofInstruction? m detailed f inst = some (ofCall m f inst site) := by
  unfold ofInstruction?
  cases op : inst.op with
  | call | invoke =>
    rw [op] at call
    cases call
    rfl
  | _ =>
    rw [op] at call
    cases call

private theorem ofCall_is (call : inst.op.callSite? = some site) :
    Is m f inst (ofCall m f inst site) := by
  unfold ofCall
  cases callee : site.callee with
  | function id =>
    cases known : m.function? id with
    | some g =>
      simp only [Operand.function?, Option.bind_some, known]
      exact .callee call callee known
    | none =>
      simp only [Operand.function?, Option.bind_some, known]
      refine .indirectCall call fun id' same => ?_
      rw [callee] at same
      cases same
      exact known
  | _ => exact .indirectCall call fun id same => by rw [callee] at same; cases same

private theorem is_iff {x : Finding} : Is m f inst x ↔ ofInstruction? m true f inst = some x := by
  constructor
  · intro is
    cases is with
    | alloca op | store op | load op | compare op => simp [ofInstruction?, op]
    | callee call callee known =>
      rw [ofInstruction?_call call, ofCall, callee]
      simp [Operand.function?, known]
    | @indirectCall site call unknown =>
      rw [ofInstruction?_call call, ofCall]
      cases callee : site.callee with
      | function id => simp [Operand.function?, unknown id callee]
      | _ => rfl
  · intro found
    unfold ofInstruction? at found
    cases op : inst.op with
    | alloca | store | load | icmp =>
      simp only [op, if_true, Option.some.injEq] at found
      subst found
      constructor
      exact op
    | call | invoke =>
      simp only [op, Option.some.injEq] at found
      subst found
      exact ofCall_is (by rw [op]; rfl)
    | _ => simp [op] at found

private theorem ofInstruction?_isSome : (ofInstruction? m true f inst).isSome =
    inst.op.isFound := by
  unfold ofInstruction?
  cases inst.op <;> rfl

/-- The details are what a report in brief leaves out. -/
theorem ofInstruction?_brief :
    (ofInstruction? m true f inst).filter (!·.isDetail) = ofInstruction? m false f inst := by
  have call : ∀ site, (ofCall m f inst site).isDetail = false := by
    intro site
    unfold ofCall
    split <;> rfl
  unfold ofInstruction?
  cases op : inst.op with
  | call | invoke => simp [Option.filter, call]
  | _ => rfl

end Finding

/-- What is found, one for each place where something is. -/
theorem forall₂_filter_iff {α β : Type} {found? : α → Option β} {xs : List α} {ys : List β} :
    List.Forall₂ (fun a b => found? a = some b) (xs.filter fun a => (found? a).isSome) ys ↔
      ys = xs.filterMap found? := by
  induction xs generalizing ys with
  | nil => simp
  | cons x xs ih =>
    cases here : found? x with
    | none => simpa [here] using ih
    | some y =>
      cases ys with
      | nil => simp [here]
      | cons y' ys => simp [here, ih, eq_comm]

/-- A listing of parts that are given each for itself. -/
theorem exists_parts_iff {α β : Type} {R : α → List β → Prop} {part : α → List β}
    (each : ∀ a ys, R a ys ↔ ys = part a) (xs : List α) (told : List β → Prop) :
    (∃ parts : List (List β), told parts.flatten ∧ List.Forall₂ R xs parts) ↔
      told (xs.flatMap part) := by
  have same : R = fun a ys => part a = ys := by
    funext a ys
    exact propext ((each a ys).trans eq_comm)
  have parts : ∀ ps, List.Forall₂ R xs ps ↔ xs.map part = ps := by
    intro ps
    rw [same, ← List.forall₂_map_left_iff (R := Eq), List.forall₂_eq_eq_eq]
  simp only [parts, exists_eq_right', List.flatMap_def]

variable {m : Module} {f : Function}

theorem Block.listed_iff (b : Block) (xs : List Finding) :
    b.Listed m f xs ↔ xs = m.blockFindings true f b := by
  have each : Finding.Is m f = fun inst x => Finding.ofInstruction? m true f inst = some x := by
    funext inst x
    exact propext Finding.is_iff
  simp only [Listed, each, ← Finding.ofInstruction?_isSome (m := m) (f := f), forall₂_filter_iff,
    exists_eq_right]
  rfl

theorem Function.listed_iff (f : Function) (xs : List Finding) :
    f.Listed m xs ↔ xs = m.functionFindings true f :=
  exists_parts_iff Block.listed_iff f.blocks fun body => xs = .function f.name :: body

theorem Module.listed_iff (xs : List Finding) : m.Listed xs ↔ xs = m.findings true :=
  exists_parts_iff Function.listed_iff m.functions fun all => xs = all

theorem Module.blockFindings_brief (b : Block) :
    (m.blockFindings true f b).filter (!·.isDetail) = m.blockFindings false f b := by
  have marker : (Finding.block b.name).isDetail = true := rfl
  simp [blockFindings, marker, List.filter_filterMap, Finding.ofInstruction?_brief]

theorem Module.functionFindings_brief (f : Function) :
    (m.functionFindings true f).filter (!·.isDetail) = m.functionFindings false f := by
  have marker : (Finding.function f.name).isDetail = false := rfl
  simp [functionFindings, marker, List.filter_flatMap, blockFindings_brief]

/-- A report in brief is the report in detail without its details, and the report in detail is just
what is listed. -/
theorem Module.findings_listed (m : Module) :
    (m.findings true).filter (!·.isDetail) = m.findings false ∧
      ∀ xs, m.Listed xs ↔ xs = m.findings true := by
  refine ⟨?_, listed_iff⟩
  simp only [findings, List.filter_flatMap, functionFindings_brief]

end BlockTally
