import BlockTally.Proofs.Code.Built
import BlockTally.Proofs.Listing.Tokens

/-! What reading makes of a written module. Values are numbered anew, in the order in which the
text first mentions them, and constants take the type of their position. -/
namespace BlockTally

/-- The widths that can be read. -/
def Ty.InRange : Ty → Prop
  | .int width => 1 ≤ width ∧ width ≤ 128
  | _ => True

namespace Constant

def reread (ty : Ty) : Constant → Constant
  | .int width value =>
    if width = 1 then .int 1 (if value = 0 then 0 else 1) else .int (ty.width?.getD width) value
  | c => c

/-- The text of the constant is a constant of the type. -/
def ReadableAt (ty : Ty) : Constant → Prop
  | .int width _ => if width = 1 then ty = .i1 else ty.width?.isSome
  | .null => ty = .ptr
  | _ => True

/-- The text of the constant is read at the type as a constant of the same text. -/
def StableAt (ty : Ty) : Constant → Prop
  | .int width _ => ty = .int width
  | .null => ty = .ptr
  | _ => True

theorem StableAt.readable {ty : Ty} {c : Constant} (stable : c.StableAt ty) : c.ReadableAt ty := by
  cases c with
  | int width value =>
    obtain rfl : ty = .int width := stable
    change if width = 1 then Ty.int width = .i1 else (Ty.int width).width?.isSome
    split
    · rename_i one
      rw [one]
    · rfl
  | null => exact stable
  | undef => trivial
  | poison => trivial

theorem StableAt.text_reread {ty : Ty} {c : Constant} (stable : c.StableAt ty) :
    (c.reread ty).text = c.text := by
  cases c with
  | int width value =>
    obtain rfl : ty = .int width := stable
    by_cases one : width = 1
    · subst one
      by_cases zero : value = 0 <;> simp [reread, text, zero]
    · rw [reread, if_neg one]
      rfl
  | _ => rfl

end Constant

namespace Operand

def reread (number : ValueId → ValueId) (ty : Ty) : Operand → Operand
  | .value id => .value (number id)
  | .constant c => .constant (c.reread ty)
  | o => o

def ReadableAt (ty : Ty) : Operand → Prop
  | .constant c => c.ReadableAt ty
  | _ => True

def StableAt (ty : Ty) : Operand → Prop
  | .constant c => c.StableAt ty
  | _ => True

theorem StableAt.readable {ty : Ty} {o : Operand} (stable : o.StableAt ty) : o.ReadableAt ty := by
  cases o with
  | constant c => exact Constant.StableAt.readable stable
  | _ => trivial

end Operand

/-- The return type that a call is written with. -/
def CallSite.writtenRet (m : Module) (site : CallSite) : Ty :=
  match Listing.variadicCallee? m site with
  | some callee => callee.ret
  | none => site.ret

def CallSite.reread (m : Module) (number : ValueId → ValueId) (site : CallSite) : CallSite where
  ret := site.writtenRet m
  callee := site.callee.reread number .ptr
  args := site.args.map fun arg => (arg.1, arg.2.reread number arg.1)

namespace Operation

/-- The types that stand in the text before an operand or as a result. -/
def tys (m : Module) : Operation → List Ty
  | .alloca ty _ | .load ty .. | .store ty .. | .arith _ ty .. | .icmp _ ty .. | .phi ty _ => [ty]
  | .convert _ source _ target => [source, target]
  | .call site | .invoke site .. => site.writtenRet m :: site.args.map (·.1)
  | .ret ty _ => [ty]
  | .br .. | .condBr .. | .unreachable => []

/-- The operands, each with the type of its position. -/
def positions : Operation → List (Ty × Operand)
  | .alloca .. | .br .. | .unreachable => []
  | .load _ ptr _ => [(.ptr, ptr)]
  | .store ty value ptr _ => [(ty, value), (.ptr, ptr)]
  | .arith _ ty lhs rhs .. | .icmp _ ty lhs rhs => [(ty, lhs), (ty, rhs)]
  | .convert _ source value _ => [(source, value)]
  | .phi ty incoming => incoming.map fun edge => (ty, edge.1)
  | .call site | .invoke site .. => (.ptr, site.callee) :: site.args
  | .condBr cond .. => [(.i1, cond)]
  | .ret ty value => value.toList.map fun value => (ty, value)

theorem map_snd_positions (op : Operation) : op.positions.map (·.2) = op.operands := by
  cases op <;> simp [positions, operands, Function.comp_def]

def reread (m : Module) (number : ValueId → ValueId) : Operation → Operation
  | .alloca ty align => .alloca ty align
  | .load ty ptr align => .load ty (ptr.reread number .ptr) align
  | .store ty value ptr align => .store ty (value.reread number ty) (ptr.reread number .ptr) align
  | .arith op ty lhs rhs nuw nsw =>
    .arith op ty (lhs.reread number ty) (rhs.reread number ty) nuw nsw
  | .icmp pred ty lhs rhs => .icmp pred ty (lhs.reread number ty) (rhs.reread number ty)
  | .convert op source value target => .convert op source (value.reread number source) target
  | .phi ty incoming => .phi ty (incoming.map fun edge => (edge.1.reread number ty, edge.2))
  | .call site => .call (site.reread m number)
  | .invoke site normal unwind => .invoke (site.reread m number) normal unwind
  | .br dest => .br dest
  | .condBr cond thenDest elseDest => .condBr (cond.reread number .i1) thenDest elseDest
  | .ret ty value => .ret ty (value.map (·.reread number ty))
  | .unreachable => .unreachable

def writtenTy (m : Module) : Operation → Ty
  | .call site | .invoke site .. => site.writtenRet m
  | op => op.resultTy

theorem resultTy_reread (m : Module) (number : ValueId → ValueId) (op : Operation) :
    (op.reread m number).resultTy = op.writtenTy m := by
  cases op <;> rfl

/-- What the text of an operation takes for granted. -/
def Shaped : Operation → Prop
  | .phi _ incoming => incoming ≠ []
  | .call site | .invoke site .. => ∀ c, site.callee ≠ .constant c
  | .ret ty value => ty = .void ↔ value = none
  | _ => True

structure Readable (m : Module) (op : Operation) : Prop where
  tys : ∀ ty ∈ op.tys m, ty.InRange
  positions : ∀ p ∈ op.positions, p.2.ReadableAt p.1
  shaped : op.Shaped

def mentions (op : Operation) : List ValueId := op.operands.filterMap Operand.value?

end Operation

namespace Instruction

/-- Operands come before the result. -/
def mentions (inst : Instruction) : List ValueId := inst.op.mentions ++ inst.result.toList

def reread (m : Module) (number : ValueId → ValueId) (inst : Instruction) : Instruction where
  result := inst.result.map number
  op := inst.op.reread m number
  dbg := inst.dbg

end Instruction

def Block.reread (m : Module) (number : ValueId → ValueId) (b : Block) : Block where
  name := b.name
  insts := b.insts.map (·.reread m number)

/-- Adds a value that was not seen before. -/
def meet (seen : List ValueId) (id : ValueId) : List ValueId :=
  if id ∈ seen then seen else seen ++ [id]

namespace Function

def instructions (f : Function) : List Instruction := f.blocks.flatMap (·.insts)

def mentions (f : Function) : List ValueId := f.instructions.flatMap (·.mentions)

def results (f : Function) : List ValueId := f.instructions.filterMap (·.result)

/-- The values in the order of first mention, parameters first. -/
def order (f : Function) : List ValueId := f.mentions.foldl meet f.params

def number (f : Function) (id : ValueId) : ValueId := ⟨f.order.idxOf id⟩

/-- The type that a value has when it is read again. -/
def writtenTy (m : Module) (f : Function) (id : ValueId) : Ty :=
  if id ∈ f.params then ((f.value? id).map (·.ty)).getD .void
  else ((f.instructions.find? (·.result = some id)).map (·.op.writtenTy m)).getD .void

/-- The text of a declaration does not name its parameters. -/
def writtenName (f : Function) (id : ValueId) : String :=
  if f.isDeclaration then toString (f.params.idxOf id) else f.valueName id

/-- The line of a value in the new table, with the type it has there. -/
def entry (f : Function) (tys : ValueId → Ty) (id : ValueId) : Value where
  name := f.writtenName id
  ty := tys id
  origin := if id ∈ f.params then .parameter (f.params.idxOf id) else .instruction

def rereadAttrs (f : Function) : Attributes where
  lead := f.attrs.lead
  params := (List.range f.params.length).map f.attrs.param
  trail := f.attrs.trail

def reread (m : Module) (f : Function) : Function where
  name := f.name
  ret := f.ret
  linkage := f.linkage
  params := f.params.map f.number
  variadic := f.variadic
  blocks := f.blocks.map (·.reread m f.number)
  values := f.order.map (f.entry (f.writtenTy m))
  attrs := f.rereadAttrs

end Function

def Global.reread (g : Global) : Global := { g with initial := g.initial.map (·.reread g.ty) }

def Module.reread (m : Module) : Module where
  name := m.name
  sourceFilename := m.sourceFilename
  datalayout := m.datalayout
  triple := m.triple
  globals := m.globals.map (·.reread)
  functions := m.functions.map (·.reread m)
  metadata := m.metadata
  namedMetadata := m.namedMetadata
  comdats := m.comdats
  attributeGroups := m.attributeGroups

end BlockTally
