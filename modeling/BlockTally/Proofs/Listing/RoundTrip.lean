import BlockTally.Proofs.Listing.Modules
import BlockTally.Proofs.Listing.Sound

/-! Reading a listing gives back the module that was written, with its values in the order of first
mention. Main statement: `parse_listed`. -/
namespace BlockTally
open Listing

namespace Constant

/-- A constant of the type. Undefined values have any type. -/
def FitsAt (ty : Ty) : Constant → Prop
  | .int width value => ty = .int width ∧ (width = 1 → value = 0 ∨ value = 1)
  | .null => ty = .ptr
  | _ => True

theorem FitsAt.readable {ty : Ty} {c : Constant} (fits : c.FitsAt ty) : c.ReadableAt ty := by
  cases c with
  | int width value =>
    obtain ⟨rfl, -⟩ := fits
    change if width = 1 then Ty.int width = .i1 else (Ty.int width).width?.isSome
    by_cases one : width = 1
    · rw [if_pos one, one]
    · rw [if_neg one]
      rfl
  | null => exact fits
  | undef => trivial
  | poison => trivial

theorem FitsAt.reread {ty : Ty} {c : Constant} (fits : c.FitsAt ty) : c.reread ty = c := by
  cases c with
  | int width value =>
    obtain ⟨rfl, bit⟩ := fits
    simp only [Constant.reread]
    split
    · rename_i one
      obtain rfl | rfl := bit one
      · rw [one]; rfl
      · rw [one]; rfl
    · rfl
  | null => rfl
  | undef => rfl
  | poison => rfl

end Constant

namespace Operand

def FitsAt (ty : Ty) : Operand → Prop
  | .constant c => c.FitsAt ty
  | _ => True

def renumber (number : ValueId → ValueId) : Operand → Operand
  | .value id => .value (number id)
  | o => o

theorem FitsAt.readable {ty : Ty} {o : Operand} (fits : o.FitsAt ty) : o.ReadableAt ty := by
  cases o with
  | constant c => exact Constant.FitsAt.readable fits
  | value id => trivial
  | global id => trivial
  | function id => trivial

theorem FitsAt.reread {ty : Ty} {o : Operand} (fits : o.FitsAt ty) (number : ValueId → ValueId) :
    o.reread number ty = o.renumber number := by
  cases o with
  | constant c => exact congrArg Operand.constant (Constant.FitsAt.reread fits)
  | value id => rfl
  | global id => rfl
  | function id => rfl

end Operand

def CallSite.renumber (number : ValueId → ValueId) (site : CallSite) : CallSite where
  ret := site.ret
  callee := site.callee.renumber number
  args := site.args.map fun arg => (arg.1, arg.2.renumber number)

namespace Operation

def renumber (number : ValueId → ValueId) : Operation → Operation
  | .alloca ty align => .alloca ty align
  | .load ty ptr align => .load ty (ptr.renumber number) align
  | .store ty value ptr align => .store ty (value.renumber number) (ptr.renumber number) align
  | .arith op ty lhs rhs nuw nsw => .arith op ty (lhs.renumber number) (rhs.renumber number) nuw nsw
  | .icmp pred ty lhs rhs => .icmp pred ty (lhs.renumber number) (rhs.renumber number)
  | .convert op source value target => .convert op source (value.renumber number) target
  | .phi ty incoming => .phi ty (incoming.map fun edge => (edge.1.renumber number, edge.2))
  | .call site => .call (site.renumber number)
  | .invoke site normal unwind => .invoke (site.renumber number) normal unwind
  | .br dest => .br dest
  | .condBr cond thenDest elseDest => .condBr (cond.renumber number) thenDest elseDest
  | .ret ty value => .ret ty (value.map (·.renumber number))
  | .unreachable => .unreachable

end Operation

def Instruction.renumber (number : ValueId → ValueId) (inst : Instruction) : Instruction where
  result := inst.result.map number
  op := inst.op.renumber number
  dbg := inst.dbg

def Block.renumber (number : ValueId → ValueId) (b : Block) : Block where
  name := b.name
  insts := b.insts.map (·.renumber number)

namespace Function

/-- The same function with its values in the order of first mention. The parameters of a
declaration, which are not named in a listing, are named by their numbers. -/
def renumbered (f : Function) : Function where
  name := f.name
  ret := f.ret
  linkage := f.linkage
  params := f.params.map f.number
  variadic := f.variadic
  blocks := f.blocks.map (·.renumber f.number)
  values := f.order.filterMap fun id =>
    (f.value? id).map fun v => { v with name := f.writtenName id }
  attrs := f.rereadAttrs

def valueIds (f : Function) : List ValueId := (List.range f.values.length).map .mk

private theorem mem_valueIds {f : Function} {id : ValueId} :
    id ∈ f.valueIds ↔ (f.value? id).isSome := by
  cases id
  simp [valueIds, value?]

private theorem nodup_valueIds (f : Function) : f.valueIds.Nodup :=
  List.nodup_range.map fun _ _ same => by simpa using same

end Function

def Module.renumbered (m : Module) : Module :=
  { m with functions := m.functions.map (·.renumbered) }

/-- A call of a function, and where that is variadic with its return type. -/
structure CallSite.Listable (m : Module) (site : CallSite) : Prop where
  callee : ∀ c, site.callee ≠ .constant c
  ret : ∀ id callee, site.callee = .function id → m.function? id = some callee →
    callee.variadic = true → site.ret = callee.ret

namespace Operation

/-- Types and constants can be listed at their places, and no list of edges is empty. -/
structure Listable (m : Module) (op : Operation) : Prop where
  tys : ∀ ty ∈ op.tys m, ty.InRange
  constants : ∀ p ∈ op.positions, p.2.FitsAt p.1
  calls : ∀ site, op.callSite? = some site → site.Listable m
  edges : ∀ ty incoming, op = .phi ty incoming → incoming ≠ []

end Operation

/-- Names without quotes, types of a width that can be written, each value but a parameter the
result of one instruction, at the type in the table, and text that the reader keeps. -/
structure Function.Listable (m : Module) (f : Function) : Prop where
  name : Unquoted f.name
  ret : f.ret.InRange
  values : ∀ v ∈ f.values, Unquoted v.name ∧ v.ty.InRange
  labels : ∀ b ∈ f.blocks, Unquoted b.name
  distinct : (f.blocks.map (·.name)).Nodup
  once : f.results.Nodup
  separate : ∀ id ∈ f.params, id ∉ f.results
  defined : ∀ id v, f.value? id = some v → id ∉ f.params →
    id ∈ f.results ∧ v.origin = .instruction
  typed : ∀ inst ∈ f.instructions, ∀ id, inst.result = some id →
    ∃ v, f.value? id = some v ∧ v.ty = inst.op.resultTy ∧ v.ty ≠ .void
  ops : ∀ inst ∈ f.instructions, inst.op.Listable m
  lead : KeptWords true isTyWord f.attrs.lead
  params : ∀ position < f.params.length, KeptParam (f.attrs.param position)
  trail : KeptTrail f

structure Global.Listable (g : Global) : Prop where
  name : Unquoted g.name
  ty : g.ty.InRange
  initial : ∀ c ∈ g.initial, c.FitsAt g.ty
  qualifiers : KeptWords false isVariableWord g.qualifiers
  attachments : g.attachments ≠ "" → KeptAttachments g

structure Module.Listable (m : Module) : Prop where
  name : Flat m.name
  sourceFilename : ∀ text ∈ m.sourceFilename, Unquoted text
  datalayout : ∀ text ∈ m.datalayout, Unquoted text
  triple : ∀ text ∈ m.triple, Unquoted text
  comdats : ∀ text ∈ m.comdats, KeptLine .comdatRef text
  globals : ∀ g ∈ m.globals, g.Listable
  functions : ∀ f ∈ m.functions, f.Listable m
  groups : ∀ text ∈ m.attributeGroups, KeptLine (.word "attributes") text
  named : ∀ node ∈ m.namedMetadata, NodeName node.1 ∧ KeptNode node.2
  nodes : ∀ node ∈ m.metadata, KeptNode node.2

section
variable {m : Module}

theorem CallSite.Listable.writtenRet {site : CallSite} (ok : site.Listable m) :
    site.writtenRet m = site.ret := by
  unfold CallSite.writtenRet
  split
  · rename_i callee found
    unfold variadicCallee? at found
    split at found
    · rename_i id direct
      obtain ⟨here, variadic⟩ := Option.filter_eq_some_iff.mp found
      exact (ok.ret id callee direct here variadic).symm
    · cases found
  · rfl

theorem CallSite.Listable.reread {site : CallSite} (ok : site.Listable m)
    (args : ∀ arg ∈ site.args, arg.2.FitsAt arg.1) (number : ValueId → ValueId) :
    site.reread m number = site.renumber number := by
  have callee : site.callee.reread number .ptr = site.callee.renumber number := by
    cases known : site.callee with
    | constant c => exact absurd known (ok.callee c)
    | value id => rfl
    | global id => rfl
    | function id => rfl
  have each : (site.args.map fun arg => (arg.1, arg.2.reread number arg.1)) =
      site.args.map fun arg => (arg.1, arg.2.renumber number) :=
    List.map_congr_left fun arg mem => by rw [(args arg mem).reread]
  rw [CallSite.reread, CallSite.renumber, ok.writtenRet, callee, each]

theorem Operation.Listable.writtenTy {op : Operation} (ok : op.Listable m) :
    op.writtenTy m = op.resultTy := by
  cases op with
  | call site => exact (ok.calls site rfl).writtenRet
  | invoke site normal unwind => exact (ok.calls site rfl).writtenRet
  | _ => rfl

theorem Operation.Listable.reread {op : Operation} (ok : op.Listable m)
    (number : ValueId → ValueId) : op.reread m number = op.renumber number := by
  have fits := ok.constants
  have pair {a b : Ty × Operand} (both : ∀ p ∈ [a, b], p.2.FitsAt p.1) :
      a.2.FitsAt a.1 ∧ b.2.FitsAt b.1 := ⟨both a (by simp), both b (by simp)⟩
  cases op with
  | phi ty incoming =>
    have each : (incoming.map fun edge => (edge.1.reread number ty, edge.2)) =
        incoming.map fun edge => (edge.1.renumber number, edge.2) :=
      List.map_congr_left fun edge mem => by
        rw [(fits (ty, edge.1) (List.mem_map_of_mem mem)).reread]
    rw [Operation.reread, Operation.renumber, each]
  | call site =>
    rw [Operation.reread, Operation.renumber, (ok.calls site rfl).reread
      fun arg mem => fits arg (List.mem_cons_of_mem _ mem)]
  | invoke site normal unwind =>
    rw [Operation.reread, Operation.renumber, (ok.calls site rfl).reread
      fun arg mem => fits arg (List.mem_cons_of_mem _ mem)]
  | ret ty value =>
    cases value with
    | none => rfl
    | some value =>
      have here : value.FitsAt ty := fits (ty, value) (by simp [positions])
      simp only [Operation.reread, Operation.renumber, Option.map_some, here.reread]
  | store ty value ptr align =>
    obtain ⟨here, there⟩ := pair fits
    simp only [Operation.reread, Operation.renumber, here.reread, there.reread]
  | arith op ty lhs rhs nuw nsw =>
    obtain ⟨here, there⟩ := pair fits
    simp only [Operation.reread, Operation.renumber, here.reread, there.reread]
  | icmp pred ty lhs rhs =>
    obtain ⟨here, there⟩ := pair fits
    simp only [Operation.reread, Operation.renumber, here.reread, there.reread]
  | load ty ptr align =>
    have here : ptr.FitsAt .ptr := fits _ List.mem_cons_self
    simp only [Operation.reread, Operation.renumber, here.reread]
  | convert op source value target =>
    have here : value.FitsAt source := fits _ List.mem_cons_self
    simp only [Operation.reread, Operation.renumber, here.reread]
  | condBr cond thenDest elseDest =>
    have here : cond.FitsAt .i1 := fits _ List.mem_cons_self
    simp only [Operation.reread, Operation.renumber, here.reread]
  | alloca ty align => rfl
  | br dest => rfl
  | unreachable => rfl

end

/-! Functions that can be listed. -/

section
variable {m : Module} {f : Function}

theorem Function.Listable.result (ok : f.Listable m) {inst : Instruction}
    (mem : inst ∈ f.instructions) : ∀ id, inst.result = some id → (f.value? id).isSome := by
  intro id has
  obtain ⟨v, here, -⟩ := ok.typed inst mem id has
  rw [here]
  rfl

theorem Function.Listable.writtenTy (ok : f.Listable m) {id : ValueId} {v : Value}
    (here : f.value? id = some v) : f.writtenTy m id = v.ty := by
  unfold Function.writtenTy
  split
  · rw [here]
    rfl
  · rename_i value
    obtain ⟨inst, mem, has⟩ := List.mem_filterMap.mp (ok.defined id v here value).1
    have some : (f.instructions.find? (·.result = some id)).isSome :=
      List.find?_isSome.mpr ⟨inst, mem, by simpa using has⟩
    obtain ⟨first, found⟩ := Option.isSome_iff_exists.mp some
    obtain ⟨w, there, ty, -⟩ := ok.typed first (List.mem_of_find?_eq_some found) id
      (by simpa using List.find?_some found)
    obtain rfl : v = w := by simpa [here] using there
    rw [found, Option.map_some, Option.getD_some, ty,
      (ok.ops first (List.mem_of_find?_eq_some found)).writtenTy]

theorem Function.Listable.settled (ok : f.Listable m) {id : ValueId} (here : (f.value? id).isSome) :
    id ∈ f.params ++ f.results := by
  obtain ⟨v, here⟩ := Option.isSome_iff_exists.mp here
  by_cases param : id ∈ f.params
  · exact List.mem_append_left _ param
  · exact List.mem_append_right _ (ok.defined id v here param).1

theorem Function.Listable.mentioned (ok : f.Listable m) (sound : functionDefects m f = [])
    {id : ValueId} (mem : id ∈ f.mentions) : (f.value? id).isSome := by
  obtain ⟨inst, among, named⟩ := List.mem_flatMap.mp mem
  obtain ⟨b, site, sound⟩ := Function.sound_instruction sound among
  exact sound.mention (ok.result among) named

theorem Function.Listable.numbered (ok : f.Listable m) (coherent : f.Coherent)
    (sound : functionDefects m f = []) : f.Numbered where
  distinct := coherent.distinct
  known := fun id mem => by
    rcases List.mem_append.mp mem with param | mention
    · have inside := coherent.param_lt param
      simp [Function.value?, inside]
    · exact ok.mentioned sound mention
  once := List.nodup_append.mpr ⟨coherent.separate, ok.once, fun id param other result same =>
    ok.separate id param (same ▸ result)⟩

theorem Function.Listable.readable (ok : f.Listable m) (names : Spellable m f)
    (coherent : f.Coherent) (sound : functionDefects m f = []) : FunctionReadable m f where
  header :=
    { name := ok.name
      ret := ok.ret
      numbered := ok.numbered coherent sound
      params := fun id mem => by
        obtain ⟨k, here⟩ := List.mem_iff_getElem?.mp mem
        obtain ⟨v, known, -, named⟩ := coherent.param k id here
        obtain ⟨unquoted, range⟩ := ok.values v (List.mem_of_getElem? known)
        exact ⟨v, known, range, named, fun _ => unquoted⟩
      attrs := ok.params
      lead := ok.lead }
  trail := ok.trail
  unquoted := ok.labels
  labels := ok.distinct
  insts := fun inst mem => by
    obtain ⟨b, site, sound⟩ := Function.sound_instruction sound mem
    have listable := ok.ops inst mem
    have readable := fun p place => (listable.constants p place).readable
    refine ⟨sound.known names (ok.result mem), ⟨listable.tys, readable, ?_⟩, fun id has => ?_⟩
    · cases known : inst.op with
      | phi ty incoming => exact listable.edges ty incoming known
      | call site => exact (listable.calls site (by rw [known]; rfl)).callee
      | invoke site normal unwind => exact (listable.calls site (by rw [known]; rfl)).callee
      | ret ty value => exact sound.ret known
      | _ => trivial
    · obtain ⟨v, here, ty, some⟩ := ok.typed inst mem id has
      rw [listable.writtenTy, ok.writtenTy here, ← ty]
      exact ⟨rfl, some⟩
  settled := fun id mem => ok.settled (ok.mentioned sound mem)
  entry := Function.sound_entry sound

/-- The values are the parameters and what the code mentions. -/
theorem Function.Listable.order_perm (ok : f.Listable m) (coherent : f.Coherent)
    (sound : functionDefects m f = []) : f.order.Perm f.valueIds := by
  refine (List.perm_ext_iff_of_nodup (Function.nodup_order coherent.separate)
    f.nodup_valueIds).mpr fun id => ?_
  rw [Function.mem_order, Function.mem_valueIds]
  constructor
  · intro mem
    exact (ok.numbered coherent sound).known id (List.mem_append.mpr mem)
  · intro here
    exact (List.mem_append.mp (ok.settled here)).imp_right Function.mem_mentions_of_results

theorem Function.Listable.reread (ok : f.Listable m) (coherent : f.Coherent)
    (sound : functionDefects m f = []) : f.reread m = f.renumbered := by
  have blocks : f.blocks.map (·.reread m f.number) = f.blocks.map (·.renumber f.number) := by
    refine List.map_congr_left fun b mem => ?_
    have insts : b.insts.map (·.reread m f.number) = b.insts.map (·.renumber f.number) := by
      refine List.map_congr_left fun inst among => ?_
      rw [Instruction.reread, Instruction.renumber,
        (ok.ops inst (List.mem_flatMap.mpr ⟨b, mem, among⟩)).reread]
    rw [Block.reread, Block.renumber, insts]
  have values : f.order.map (f.entry (f.writtenTy m)) = f.order.filterMap fun id =>
      (f.value? id).map fun v => { v with name := f.writtenName id } := by
    rw [← List.filterMap_eq_map]
    refine List.filterMap_congr fun id mem => ?_
    have here := Function.mem_valueIds.mp ((ok.order_perm coherent sound).mem_iff.mp mem)
    obtain ⟨v, here⟩ := Option.isSome_iff_exists.mp here
    have origin : (if id ∈ f.params then Origin.parameter (f.params.idxOf id) else .instruction) =
        v.origin := by
      split
      · rename_i param
        obtain ⟨w, known, origin, -⟩ := coherent.param _ id (List.getElem?_idxOf param)
        obtain rfl : v = w := by simpa [here] using known
        exact origin.symm
      · rename_i value
        exact (ok.defined id v here value).2.symm
    simp only [Function.comp_apply, Function.entry, here, Option.map_some, ok.writtenTy here,
      origin]
  rw [Function.reread, Function.renumbered, blocks, values]

end

theorem Global.Listable.readable {g : Global} (ok : g.Listable) : GlobalReadable g where
  name := ok.name
  ty := ok.ty
  initial := fun c mem => (ok.initial c mem).readable
  qualifiers := ok.qualifiers
  attachments := ok.attachments

theorem Global.Listable.reread {g : Global} (ok : g.Listable) : g.reread = g := by
  have same : g.initial.map (·.reread g.ty) = g.initial := by
    cases initial : g.initial with
    | none => rfl
    | some c => rw [Option.map_some, (ok.initial c initial).reread]
  rw [Global.reread, same]

section
variable {m : Module}

theorem Module.Listable.spellable (ok : m.Listable) {f : Function} (mem : f ∈ m.functions) :
    Spellable m f where
  globals := fun g among => (ok.globals g among).name
  functions := fun g among => (ok.functions g among).name
  values := fun v among => ((ok.functions f mem).values v among).1
  labels := (ok.functions f mem).labels

theorem Module.Listable.printable (ok : m.Listable) (coherent : m.Coherent)
    (valid : m.isValid = true) : Printable m where
  name := ok.name
  sourceFilename := ok.sourceFilename
  datalayout := ok.datalayout
  triple := ok.triple
  distinct := coherent.distinct
  ordered := coherent.ordered
  comdats := ok.comdats
  globals := fun g mem => (ok.globals g mem).readable
  functions := fun f mem => (ok.functions f mem).readable (ok.spellable mem)
    (coherent.functions f mem) (functionDefects_of_valid valid mem)
  groups := ok.groups
  named := ok.named
  nodes := ok.nodes

theorem Module.Listable.reread (ok : m.Listable) (coherent : m.Coherent)
    (valid : m.isValid = true) : m.reread = m.renumbered := by
  have globals : m.globals.map (·.reread) = m.globals := by
    rw [List.map_congr_left fun g mem => (ok.globals g mem).reread, List.map_id']
  have functions : m.functions.map (·.reread m) = m.functions.map (·.renumbered) :=
    List.map_congr_left fun f mem => (ok.functions f mem).reread (coherent.functions f mem)
      (functionDefects_of_valid valid mem)
  rw [Module.reread, Module.renumbered, globals, functions]

/-- The listing of a valid module is read as this module again. Only the numbers of the values have
changed, and none is lost or added. -/
theorem parse_listed (built : m.Built) (valid : m.isValid = true) (ok : m.Listable) :
    ∃ text, moduleText m = some text ∧ parse m.name text = .ok m.renumbered ∧
      ∀ f ∈ m.functions, f.order.Perm f.valueIds := by
  have coherent := built.coherent
  obtain ⟨text, written, again⟩ := parse_written (ok.printable coherent valid)
  refine ⟨text, written, ?_, fun f mem => (ok.functions f mem).order_perm
    (coherent.functions f mem) (Module.functionDefects_of_valid valid mem)⟩
  rw [again, ok.reread coherent valid]

end

/-! A loop in which a value is used before its definition. -/

/-- Counts up to the parameter. The table does not have the values in the order of the code. -/
def climbing : Function where
  name := "main"
  ret := .int 32
  params := [⟨0⟩]
  blocks := [
    ⟨"", [{ op := .br ⟨1⟩ }]⟩,
    ⟨"loop", [
      { result := some ⟨2⟩, op := .phi (.int 32) [(.int 32 0, ⟨0⟩), (.value ⟨3⟩, ⟨1⟩)] },
      { result := some ⟨3⟩, op := .arith .add (.int 32) (.value ⟨2⟩) (.int 32 1) false true },
      { result := some ⟨1⟩, op := .icmp .slt (.int 32) (.value ⟨3⟩) (.value ⟨0⟩), dbg := some 7 },
      { op := .condBr (.value ⟨1⟩) ⟨1⟩ ⟨2⟩ }]⟩,
    ⟨"the end", [{ op := .ret (.int 32) (some (.value ⟨3⟩)) }]⟩]
  values := [⟨"n", .int 32, .parameter 0⟩, ⟨"c", .i1, .instruction⟩, ⟨"i", .int 32, .instruction⟩,
    ⟨"j", .int 32, .instruction⟩]
  attrs := { params := [""] }

private theorem climbing_built : climbing.Built := by
  have start : Function.Steps { name := "main", ret := .int 32 } { climbing with
      blocks := [], values := climbing.values.take 1, attrs := {} } :=
    .single (.addParam _ (.int 32) "n")
  have named (k : Nat) (less : k < 3) : Function.Step
      { climbing with blocks := [], values := climbing.values.take (k + 1), attrs := {} }
      { climbing with blocks := [], values := climbing.values.take (k + 2), attrs := {} } := by
    obtain rfl | rfl | rfl : k = 0 ∨ k = 1 ∨ k = 2 := by omega
    all_goals exact .addNamedValue (Function.addNamedValue_eq_ok.mpr ⟨by decide, rfl, rfl⟩)
  have values := ((start.tail (named 0 (by decide))).tail (named 1 (by decide))).tail
    (named 2 (by decide))
  have blocks := ((values.tail (.addBlock _ "")).tail (.addBlock _ "loop")).tail
    (.addBlock _ "the end")
  have filled := ((blocks.tail (.setBlock _ ⟨0⟩ climbing.blocks[0])).tail
    (.setBlock _ ⟨1⟩ climbing.blocks[1])).tail (.setBlock _ ⟨2⟩ climbing.blocks[2])
  exact ⟨"main", .int 32, filled.tail (.setAttrs _ climbing.attrs)⟩

/-- The loop, with a counter and a node. -/
def climbingModule : Module where
  name := "m"
  sourceFilename := some "m.c"
  globals := [⟨"calls", .i64, .internal, false, "", some (.int 64 0), some 8, ""⟩]
  functions := [climbing]
  metadata := [(7, "!\x7b\x7d")]

private theorem climbing_module_built : climbingModule.Built := by
  have header := (Module.Built.new "m").header (some "m.c") none none
  have counter : Module.Built { climbingModule with functions := [], metadata := [] } :=
    header.addGlobal (Module.addGlobal_eq_ok.mpr ⟨List.not_mem_nil, rfl, rfl⟩)
  have code : Module.Built { climbingModule with metadata := [] } :=
    counter.addFunction climbing_built (Module.addFunction_eq_ok.mpr ⟨by decide, rfl, rfl⟩)
  exact code.addMetadata 7 "!\x7b\x7d"

instance : DecidablePred Ty.InRange
  | .void => .isTrue trivial
  | .int width => inferInstanceAs (Decidable (1 ≤ width ∧ width ≤ 128))
  | .ptr => .isTrue trivial

instance (ty : Ty) : DecidablePred (Constant.FitsAt ty)
  | .int width value =>
    inferInstanceAs (Decidable (ty = .int width ∧ (width = 1 → value = 0 ∨ value = 1)))
  | .null => inferInstanceAs (Decidable (ty = .ptr))
  | .undef | .poison => .isTrue trivial

instance (ty : Ty) : DecidablePred (Operand.FitsAt ty)
  | .constant c => inferInstanceAs (Decidable (c.FitsAt ty))
  | .value _ | .global _ | .function _ => .isTrue trivial

private theorem areAttributes_nil : AreAttributes [] := ⟨[], nofun, rfl⟩

private theorem keptTrail_nothing : KeptTrail climbing := ⟨[], raw_nothing, nofun⟩

private theorem climbing_listable : climbing.Listable climbingModule where
  name := by decide
  ret := by decide
  values := by decide
  labels := by decide
  distinct := by decide
  once := by decide
  separate := by decide
  defined := by
    rintro ⟨k⟩ v here value
    rcases k with _ | _ | _ | _ | k
    · exact absurd List.mem_cons_self value
    all_goals
      cases here
      try decide
  typed := by
    intro inst mem id has
    simp only [climbing, Function.instructions, List.flatMap_cons, List.flatMap_nil,
      List.cons_append, List.nil_append, List.mem_cons, List.not_mem_nil, or_false] at mem
    rcases mem with rfl | rfl | rfl | rfl | rfl | rfl
    all_goals cases has
    all_goals exact ⟨_, rfl, rfl, by decide⟩
  ops := by
    intro inst mem
    simp only [climbing, Function.instructions, List.flatMap_cons, List.flatMap_nil,
      List.cons_append, List.nil_append, List.mem_cons, List.not_mem_nil, or_false] at mem
    rcases mem with rfl | rfl | rfl | rfl | rfl | rfl
    all_goals refine ⟨by decide, by decide, by rintro _ ⟨⟩, ?_⟩
    all_goals
      rintro ty incoming edges
      cases edges
      try exact List.cons_ne_nil _ _
  lead := kept_nothing
  params := by
    intro position less
    obtain rfl : position = 0 := by simpa [climbing] using less
    exact ⟨[], raw_nothing, areAttributes_nil⟩
  trail := keptTrail_nothing

theorem parse_listed_climbing :
    climbingModule.Built ∧ climbingModule.isValid = true ∧ climbingModule.Listable ∧
    ∃ text, moduleText climbingModule = some text ∧ parse "m" text = .ok climbingModule.renumbered ∧
      climbing.order = [⟨0⟩, ⟨3⟩, ⟨2⟩, ⟨1⟩] := by
  have node : KeptNode "!\x7b\x7d" := by
    have bang := Spelling.bang.lexes.append (lexes_punct (by decide) (c := '{') rfl) fun _ _ =>
      ends_cons (by decide)
    have whole := bang.append (lexes_punct (by decide) (c := '}') rfl) fun _ _ => trivial
    exact ⟨by decide, by decide, _, whole 0 [] [] trivial .nil⟩
  have listable : climbingModule.Listable :=
    { name := by decide
      sourceFilename := by
        rintro text ⟨⟩
        decide
      datalayout := by rintro _ ⟨⟩
      triple := by rintro _ ⟨⟩
      comdats := by rintro _ ⟨⟩
      globals := by
        intro g mem
        obtain rfl := List.mem_singleton.mp mem
        refine ⟨by decide, by decide, ?_, kept_nothing, fun some => absurd rfl some⟩
        rintro c ⟨⟩
        exact ⟨rfl, fun one => absurd one (by decide)⟩
      functions := by
        intro f mem
        obtain rfl := List.mem_singleton.mp mem
        exact climbing_listable
      groups := by rintro _ ⟨⟩
      named := by rintro _ ⟨⟩
      nodes := by
        intro n mem
        obtain rfl := List.mem_singleton.mp mem
        exact node }
  have valid : climbingModule.isValid = true := by decide
  obtain ⟨text, written, again, -⟩ := parse_listed climbing_module_built valid listable
  exact ⟨climbing_module_built, valid, listable, text, written, again, by decide⟩

end BlockTally
