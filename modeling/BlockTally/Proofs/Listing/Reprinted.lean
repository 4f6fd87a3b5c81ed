import BlockTally.Proofs.Listing.Rendered
import BlockTally.Proofs.Listing.SingleAssignment

/-! The text of a module that is read from its own text. Main statement: `moduleText_retold`, that
only a branch on a constant can make it another text. -/
namespace BlockTally
open Listing

/-- Texts of items that have changed, but not in their texts. -/
theorem mapM_map_congr {α β γ : Type} {text : α → Option β} {change : γ → α} {text' : γ → Option β} :
    ∀ {xs : List γ}, (∀ x ∈ xs, text (change x) = text' x) →
      (xs.map change).mapM text = xs.mapM text'
  | [], _ => rfl
  | x :: xs, same => by
    obtain ⟨first, rest⟩ := List.forall_mem_cons.mp same
    rw [List.map_cons, List.mapM_cons, List.mapM_cons, first, mapM_map_congr rest]

section
variable {m : Module} {f : Function}

namespace Function

theorem value?_reread {id : ValueId} (mem : id ∈ f.order) :
    (f.reread m).value? (f.number id) = some (f.entry (f.writtenTy m) id) := by
  change (f.order.map (f.entry (f.writtenTy m)))[(f.number id).index]? = _
  rw [List.getElem?_map, order_getElem? mem]
  rfl

theorem block?_reread (id : BlockId) :
    (f.reread m).block? id = (f.block? id).map (·.reread m f.number) := List.getElem?_map

theorem FromText.mem_order (known : f.FromText m) {id : ValueId} (mem : id ∈ f.order) :
    ∃ v, f.value? id = some v := by
  rcases Function.mem_order.mp mem with param | mention
  · exact Option.isSome_iff_exists.mp (known.singleAssignment.params id param).1
  · exact Option.isSome_iff_exists.mp (known.mentioned mention)

private theorem mentions_subset {inst : Instruction} (mem : inst ∈ f.instructions) :
    inst.mentions ⊆ f.mentions := fun _ mention => List.mem_flatMap.mpr ⟨inst, mem, mention⟩

theorem mem_order_of_operand {inst : Instruction} (mem : inst ∈ f.instructions) {id : ValueId}
    (operand : .value id ∈ inst.op.operands) : id ∈ f.order := by
  have mention : id ∈ inst.mentions :=
    List.mem_append_left _ (List.mem_filterMap.mpr ⟨_, operand, rfl⟩)
  exact Function.mem_order.mpr (.inr (mentions_subset mem mention))

private theorem not_declaration {inst : Instruction} (mem : inst ∈ f.instructions) :
    f.isDeclaration = false := by
  obtain ⟨b, among, -⟩ := List.mem_flatMap.mp mem
  simpa [isDeclaration] using List.ne_nil_of_mem among

/-- A parameter keeps its type. -/
theorem writtenTy_param {id : ValueId} {v : Value}
    (mem : id ∈ f.params) (here : f.value? id = some v) : f.writtenTy m id = v.ty := by
  rw [Function.writtenTy, if_pos mem, here]
  rfl

theorem FromText.signature_reread (known : f.FromText m) :
    (f.reread m).signature = f.signature := by
  have params : (f.params.map f.number).filterMap (fun id => ((f.reread m).value? id).map (·.ty)) =
      f.params.filterMap fun id => (f.value? id).map (·.ty) := by
    rw [List.filterMap_map]
    refine List.filterMap_congr fun id mem => ?_
    have order : id ∈ f.order := Function.mem_order.mpr (.inl mem)
    obtain ⟨v, here⟩ := known.mem_order order
    rw [Function.comp_apply, value?_reread order, here, Option.map_some, Option.map_some,
      Function.entry, writtenTy_param mem here]
  exact congrArg (Signature.mk f.ret · f.variadic) params

end Function

theorem Module.function?_reread (id : FuncId) :
    m.reread.function? id = (m.function? id).map (·.reread m) := List.getElem?_map

theorem Module.global?_reread (id : GlobalId) :
    m.reread.global? id = (m.global? id).map (·.reread) := List.getElem?_map

/-! Code, with its values under their new numbers. -/

/-- A value that has a number. -/
def Operand.Met (f : Function) : Operand → Prop
  | .value id => id ∈ f.order
  | _ => True

section
variable (known : f.FromText m) (body : f.isDeclaration = false)
include known body

private theorem valueText_reread {id : ValueId} (mem : id ∈ f.order) :
    valueText (f.reread m) (f.number id) = valueText f id := by
  obtain ⟨v, here⟩ := known.mem_order mem
  have name : (f.entry (f.writtenTy m) id).name = v.name := by
    rw [Function.entry, writtenName_eq body, Function.valueName_eq here]
  simp [valueText, Function.value?_reread mem, here, name]

omit known body in
private theorem blockText_reread (id : BlockId) : blockText (f.reread m) id = blockText f id := by
  cases here : f.block? id <;> simp [blockText, Function.block?_reread, here, Block.reread]

omit known body in
private theorem labelText_reread (id : BlockId) : labelText (f.reread m) id = labelText f id := by
  simp [labelText, blockText_reread]

private theorem operandText_reread {ty : Ty} {o : Operand} (met : o.Met f)
    (stable : o.StableAt ty) :
    operandText m.reread (f.reread m) (o.reread f.number ty) = operandText m f o := by
  cases o with
  | value id => exact valueText_reread known body met
  | global id =>
    cases here : m.global? id <;>
      simp [operandText, Operand.reread, Module.global?_reread, here, Global.reread]
  | function id =>
    cases here : m.function? id <;>
      simp [operandText, Operand.reread, Module.function?_reread, here, Function.reread]
  | constant c => exact congrArg some (Constant.StableAt.text_reread stable)

omit known body in
private theorem calleeTyText_reread (functions : ∀ g ∈ m.functions, g.FromText m)
    (site : CallSite) :
    calleeTyText m.reread (site.reread m f.number) = calleeTyText m site := by
  cases callee : site.callee with
  | function id =>
    cases here : m.function? id with
    | none =>
      simp [calleeTyText, CallSite.reread, Operand.reread, callee, Module.function?_reread, here]
    | some g =>
      have signature := (functions g (List.mem_of_getElem? here)).signature_reread
      have variadic : (g.reread m).variadic = g.variadic := rfl
      cases many : g.variadic <;>
        simp [calleeTyText, CallSite.reread, CallSite.writtenRet, variadicCallee?, Operand.reread,
          callee, Module.function?_reread, here, signature, variadic, many, Option.filter]
  | _ => simp [calleeTyText, CallSite.reread, CallSite.writtenRet, variadicCallee?, Operand.reread,
      callee]

private theorem callSiteText_reread (functions : ∀ g ∈ m.functions, g.FromText m) {site : CallSite}
    (met : ∀ o ∈ site.callee :: site.args.map (·.2), o.Met f)
    (stable : ∀ p ∈ (.ptr, site.callee) :: site.args, p.2.StableAt p.1) :
    callSiteText m.reread (f.reread m) (site.reread m f.number) = callSiteText m f site := by
  obtain ⟨callee_met, args_met⟩ := List.forall_mem_cons.mp met
  obtain ⟨callee_stable, args_stable⟩ := List.forall_mem_cons.mp stable
  have callee : operandText m.reread (f.reread m) (site.reread m f.number).callee =
      operandText m f site.callee := operandText_reread known body callee_met callee_stable
  rw [callSiteText, callSiteText, calleeTyText_reread functions, callee]
  congr 1
  refine mapM_map_congr fun arg mem => ?_
  have same := operandText_reread known body (args_met arg.2 (List.mem_map_of_mem mem))
    (args_stable arg mem)
  simp only [same]

private theorem edgeText_reread {ty : Ty} {edge : Operand × BlockId} (met : edge.1.Met f)
    (stable : edge.1.StableAt ty) :
    edgeText m.reread (f.reread m) (edge.1.reread f.number ty, edge.2) = edgeText m f edge := by
  rw [edgeText, edgeText, operandText_reread known body met stable, blockText_reread]

private theorem pairText_reread {ty : Ty} {lhs rhs : Operand} (met : ∀ o ∈ [lhs, rhs], o.Met f)
    (stable : ∀ p ∈ [(ty, lhs), (ty, rhs)], p.2.StableAt p.1) :
    pairText m.reread (f.reread m) ty (lhs.reread f.number ty) (rhs.reread f.number ty) =
      pairText m f ty lhs rhs := by
  rw [pairText, pairText, operandText_reread known body (met lhs (by simp)) (stable (ty, lhs) (by simp)),
    operandText_reread known body (met rhs (by simp)) (stable (ty, rhs) (by simp))]

private theorem operationText_reread (functions : ∀ g ∈ m.functions, g.FromText m) {op : Operation}
    (met : ∀ o ∈ op.operands, o.Met f) (stable : ∀ p ∈ op.positions, p.2.StableAt p.1) :
    operationText m.reread (f.reread m) (op.reread m f.number) = operationText m f op := by
  have one : ∀ p ∈ op.positions, operandText m.reread (f.reread m) (p.2.reread f.number p.1) =
      operandText m f p.2 := by
    intro p mem
    refine operandText_reread known body (met p.2 ?_) (stable p mem)
    rw [← Operation.map_snd_positions]
    exact List.mem_map_of_mem mem
  cases op with
  | alloca | unreachable => rfl
  | load ty ptr align =>
    rw [Operation.reread, operationText, operationText, one (.ptr, ptr) (by simp [Operation.positions])]
  | store ty value ptr align =>
    rw [Operation.reread, operationText, operationText, one (ty, value) (by simp [Operation.positions]),
      one (.ptr, ptr) (by simp [Operation.positions])]
  | arith op ty lhs rhs | icmp pred ty lhs rhs =>
    rw [Operation.reread, operationText, operationText, pairText_reread known body met stable]
  | convert op source value target =>
    rw [Operation.reread, operationText, operationText,
      one (source, value) (by simp [Operation.positions])]
  | phi ty incoming =>
    have edges : (incoming.map fun edge => (edge.1.reread f.number ty, edge.2)).mapM
        (edgeText m.reread (f.reread m)) = incoming.mapM (edgeText m f) :=
      mapM_map_congr fun edge mem => edgeText_reread known body (met _ (List.mem_map_of_mem mem))
        (stable (ty, edge.1) (List.mem_map_of_mem mem))
    rw [Operation.reread, operationText, operationText, edges]
  | call site =>
    rw [Operation.reread, operationText, operationText,
      callSiteText_reread known body functions met stable]
  | invoke site normal unwind =>
    rw [Operation.reread, operationText, operationText,
      callSiteText_reread known body functions met stable, labelText_reread, labelText_reread]
  | br dest => rw [Operation.reread, operationText, operationText, labelText_reread]
  | condBr cond thenDest elseDest =>
    rw [Operation.reread, operationText, operationText, one (.i1, cond) (by simp [Operation.positions]),
      labelText_reread, labelText_reread]
  | ret ty value =>
    cases value with
    | none => rfl
    | some value =>
      rw [Operation.reread, Option.map_some, operationText, operationText,
        one (ty, value) (by simp [Operation.positions])]

end

end

/-! Texts that are the same if something holds, and otherwise differ. -/

/-- There is a first place where the texts have different characters. -/
def Diverge (a b : String) : Prop :=
  ∃ front x y as bs, x ≠ y ∧ a.toList = front ++ x :: as ∧ b.toList = front ++ y :: bs

/-- The texts are the same just if `P` holds. -/
structure Tells (P : Prop) (a b : String) : Prop where
  same : P → a = b
  apart : ¬ P → Diverge a b

section
variable {P Q : Prop} {a b c d : String}

theorem Diverge.ne (apart : Diverge a b) : a ≠ b := by
  obtain ⟨front, x, y, as, bs, other, here, there⟩ := apart
  rintro rfl
  rw [here] at there
  exact other (List.cons.inj (List.append_cancel_left there)).1

theorem Diverge.append (apart : Diverge a b) (c d : String) : Diverge (a ++ c) (b ++ d) := by
  obtain ⟨front, x, y, as, bs, other, here, there⟩ := apart
  exact ⟨front, x, y, as ++ c.toList, bs ++ d.toList, other, by simp [here], by simp [there]⟩

theorem Diverge.behind (apart : Diverge a b) (c : String) : Diverge (c ++ a) (c ++ b) := by
  obtain ⟨front, x, y, as, bs, other, here, there⟩ := apart
  exact ⟨c.toList ++ front, x, y, as, bs, other, by simp [here], by simp [there]⟩

theorem Tells.iff (tells : Tells P a b) : a = b ↔ P := by
  refine ⟨fun same => ?_, tells.same⟩
  by_contra other
  exact (tells.apart other).ne same

theorem Tells.refl (a : String) : Tells True a a := ⟨fun _ => rfl, fun none => absurd trivial none⟩

theorem Tells.cast (tells : Tells P a b) (same : P ↔ Q) : Tells Q a b :=
  ⟨fun holds => tells.same (same.mpr holds), fun fails => tells.apart (mt same.mp fails)⟩

theorem Tells.append (first : Tells P a b) (second : Tells Q c d) :
    Tells (P ∧ Q) (a ++ c) (b ++ d) where
  same := fun ⟨here, there⟩ => by rw [first.same here, second.same there]
  apart := by
    intro fails
    by_cases here : P
    · rw [← first.same here]
      exact (second.apart fun there => fails ⟨here, there⟩).behind a
    · exact (first.apart here).append c d

theorem Tells.between (tells : Tells P a b) (front back : String) :
    Tells P (front ++ a ++ back) (front ++ b ++ back) :=
  (((Tells.refl front).append tells).append (.refl back)).cast (by simp)

/-- Two optional texts are there, and they are the same just if `P` holds. -/
def Retold (P : Prop) (x y : Option String) : Prop :=
  ∃ a b, x = some a ∧ y = some b ∧ Tells P a b

/-- Lists of texts, one for each of `xs`, of which the joined texts are the same just if `P` holds
of all of `xs`. -/
theorem Retold.join {α β : Type} {P : α → Prop} {text : α → Option String} {change : α → β}
    {text' : β → Option String} : ∀ {xs : List α},
    (∀ x ∈ xs, Retold (P x) (text x) (text' (change x))) →
      ∃ as bs, xs.mapM text = some as ∧ (xs.map change).mapM text' = some bs ∧
        ∀ front back : String, Tells (∀ x ∈ xs, P x) (.join (as.map (front ++ · ++ back)))
          (.join (bs.map (front ++ · ++ back)))
  | [], _ => ⟨[], [], rfl, rfl, fun _ _ => (Tells.refl _).cast (by simp)⟩
  | x :: xs, each => by
    obtain ⟨⟨a, b, here, there, tells⟩, rest⟩ := List.forall_mem_cons.mp each
    obtain ⟨as, bs, heres, theres, all⟩ := Retold.join rest
    refine ⟨a :: as, b :: bs, by simp [here, heres], by simp [there, theres], fun front back => ?_⟩
    rw [List.map_cons, List.map_cons, String.join_cons, String.join_cons]
    exact ((tells.between front back).append (all front back)).cast List.forall_mem_cons.symm

end

/-- The condition of a branch is written at one bit, which it has to have. -/
def Operation.Steady : Operation → Prop
  | .condBr cond .. => cond.StableAt .i1
  | _ => True

/-- Digits are no truth value. -/
theorem diverge_truth (value : Int64) :
    Diverge (toString value.toInt) (if value = 0 then "false" else "true") := by
  obtain ⟨c, cs, text, sign⟩ : ∃ c cs, (toString value.toInt).toList = c :: cs ∧
      (c = '-' ∨ c.isDigit = true) := by
    rw [toList_toString_int]
    split
    · exact ⟨_, _, rfl, .inl rfl⟩
    · obtain ⟨c, cs, digits⟩ := List.exists_cons_of_ne_nil
        (Nat.toDigits_ne_nil (n := value.toInt.natAbs) (b := 10))
      refine ⟨c, cs, digits, .inr ?_⟩
      exact Nat.isDigit_of_mem_toDigits (by decide) (by decide) (digits ▸ List.mem_cons_self)
  have other : c ≠ 'f' ∧ c ≠ 't' := by
    constructor
    · rintro rfl
      revert sign
      decide
    · rintro rfl
      revert sign
      decide
  split
  · exact ⟨[], c, 'f', cs, "alse".toList, other.1, text, rfl⟩
  · exact ⟨[], c, 't', cs, "rue".toList, other.2, text, rfl⟩

private theorem tells_condition {c : Constant} (readable : c.ReadableAt .i1) :
    Tells (c.StableAt .i1) c.text (c.reread .i1).text where
  same := fun stable => (Constant.StableAt.text_reread stable).symm
  apart := by
    intro unsteady
    cases c with
    | int width value =>
      have wide : width ≠ 1 := by
        rintro rfl
        exact unsteady rfl
      have here : (Constant.int width value).reread .i1 = .int 1 value := by
        rw [Constant.reread, if_neg wide]
        rfl
      rw [here, Constant.text_int wide]
      exact diverge_truth value
    | null => cases readable
    | undef => exact absurd trivial unsteady
    | poison => exact absurd trivial unsteady

section
variable {m : Module} {f : Function}

private theorem headText_reread (known : f.FromText m) : headText (f.reread m) = headText f := by
  have param : ∀ id position, (id, position) ∈ f.params.zipIdx →
      paramText (f.reread m) position (f.number id) = paramText f position id := by
    intro id position mem
    have here := List.mem_zipIdx_iff_getElem?.mp mem
    have param := List.mem_of_getElem? here
    have order : id ∈ f.order := Function.mem_order.mpr (.inl param)
    obtain ⟨v, found⟩ := known.mem_order order
    have inside := (List.getElem?_eq_some_iff.mp here).1
    have attrs : (f.reread m).attrs.param position = f.attrs.param position := by
      change (((List.range f.params.length).map f.attrs.param)[position]?).getD "" = _
      simp [inside]
    have declaration : (f.reread m).isDeclaration = f.isDeclaration := by
      simp [Function.isDeclaration, Function.reread]
    have entry : (f.entry (f.writtenTy m) id).ty = v.ty := Function.writtenTy_param param found
    cases declared : f.isDeclaration with
    | true => simp [paramText, Function.value?_reread order, found, attrs, declaration, entry, declared]
    | false =>
      have name : (f.entry (f.writtenTy m) id).name = v.name := by
        rw [Function.entry, writtenName_eq declared, Function.valueName_eq found]
      simp [paramText, Function.value?_reread order, found, attrs, declaration, entry, name]
  have params : (f.reread m).params.zipIdx = f.params.zipIdx.map (Prod.map f.number id) :=
    List.zipIdx_map ..
  rw [headText, headText, params]
  congr 1
  exact mapM_map_congr fun p mem => param p.1 p.2 mem

/-- Only the constant condition of a branch may not be stable. -/
theorem Operation.FromText.stable {op : Operation} (known : op.FromText m f)
    (other : ∀ c thenDest elseDest, op ≠ .condBr (.constant c) thenDest elseDest) :
    ∀ p ∈ op.positions, p.2.StableAt p.1 := by
  cases op with
  | condBr cond thenDest elseDest =>
    intro p mem
    obtain rfl := List.mem_singleton.mp mem
    cases cond with
    | constant c => exact absurd rfl (other c thenDest elseDest)
    | _ => trivial
  | _ => exact known.constants nofun

theorem Operation.Steady.of_stable {op : Operation} (stable : ∀ p ∈ op.positions, p.2.StableAt p.1) :
    op.Steady := by
  cases op with
  | condBr cond => exact stable (.i1, cond) List.mem_cons_self
  | _ => trivial

variable (known : f.FromText m) (functions : ∀ g ∈ m.functions, g.FromText m)
include known functions

/-- An operation tells whether its condition has one bit, if it has one that can be read. -/
theorem operationText_retold {inst : Instruction} (mem : inst ∈ f.instructions)
    (readable : ∀ p ∈ inst.op.positions, p.2.ReadableAt p.1) :
    Retold inst.op.Steady (operationText m f inst.op)
      (operationText m.reread (f.reread m) (inst.op.reread m f.number)) := by
  have body := Function.not_declaration mem
  have assigned := known.singleAssignment
  by_cases branch : ∃ c thenDest elseDest, inst.op = .condBr (.constant c) thenDest elseDest
  · obtain ⟨c, thenDest, elseDest, op⟩ := branch
    have targets := assigned.targets inst mem
    rw [op] at readable targets ⊢
    have label : ∀ id ∈ [thenDest, elseDest], ∃ text, labelText f id = some text := by
      intro id among
      refine Option.isSome_iff_exists.mp ?_
      rw [labelText_isSome]
      exact targets id (by simpa [Operation.targets, Operation.successors] using among)
    obtain ⟨first, here⟩ := label thenDest (by simp)
    obtain ⟨second, there⟩ := label elseDest (by simp)
    have tells := (tells_condition (readable (.i1, .constant c) List.mem_cons_self)).between "br i1 "
      (", " ++ first ++ ", " ++ second)
    refine ⟨_, _, ?_, ?_, tells⟩
    · simp [operationText, operandText, here, there, String.append_assoc]
    · simp [operationText, Operation.reread, Operand.reread, operandText, labelText_reread, here,
        there, String.append_assoc]
  · have stable := (known.ops inst mem).stable fun c thenDest elseDest same =>
      branch ⟨c, thenDest, elseDest, same⟩
    have met : ∀ o ∈ inst.op.operands, o.Met f := by
      intro o among
      cases o with
      | value id => exact Function.mem_order_of_operand mem among
      | _ => trivial
    have printed := operationText_isSome.mpr
      ⟨assigned.operands inst mem, assigned.targets inst mem⟩
    obtain ⟨text, here⟩ := Option.isSome_iff_exists.mp printed
    have there := operationText_reread known body functions met stable
    exact ⟨text, text, here, there.trans here, (Tells.refl text).cast
      (iff_of_true trivial (.of_stable stable))⟩

private theorem instructionText_retold {inst : Instruction} (mem : inst ∈ f.instructions)
    (readable : ∀ p ∈ inst.op.positions, p.2.ReadableAt p.1) :
    Retold inst.op.Steady (instructionText m f inst)
      (instructionText m.reread (f.reread m) (inst.reread m f.number)) := by
  have body := Function.not_declaration mem
  obtain ⟨result, here, there⟩ : ∃ text, resultText f inst.result = some text ∧
      resultText (f.reread m) (inst.result.map f.number) = some text := by
    cases has : inst.result with
    | none => exact ⟨"", rfl, rfl⟩
    | some id =>
      have order : id ∈ f.order := Function.mem_order.mpr (.inr
        (Function.mentions_subset mem (List.mem_append_right _ (by simp [has]))))
      obtain ⟨v, found⟩ := known.mem_order order
      have text : valueText f id = some (localNameText v.name) := by simp [valueText, found]
      exact ⟨_, by rw [resultText, text]; rfl, by
        rw [Option.map_some, resultText, valueText_reread known body order, text]; rfl⟩
  obtain ⟨a, b, plain, again, tells⟩ := operationText_retold known functions mem readable
  refine ⟨_, _, ?_, ?_, tells.between ("  " ++ result) (dbgText inst.dbg)⟩
  · rw [instructionText_eq, here, plain]
    rfl
  · rw [instructionText_eq, Instruction.reread, there, again]
    rfl

private theorem blockLines_retold {b : Block} (mem : b ∈ f.blocks)
    (readable : ∀ inst ∈ b.insts, ∀ p ∈ inst.op.positions, p.2.ReadableAt p.1) (isEntry : Bool) :
    Retold (∀ inst ∈ b.insts, inst.op.Steady) (blockLines m f isEntry b)
      (blockLines m.reread (f.reread m) isEntry (b.reread m f.number)) := by
  obtain ⟨as, bs, here, there, tells⟩ := Retold.join fun inst among =>
    instructionText_retold known functions (List.mem_flatMap.mpr ⟨b, mem, among⟩) (readable inst among)
  have tells := (tells "" "\n").between (labelLine isEntry b) ""
  simp only [String.empty_append, String.append_empty] at tells
  refine ⟨_, _, ?_, ?_, tells⟩
  · rw [blockLines, here]
    rfl
  · rw [blockLines, Block.reread, there]
    rfl

/-- The text of a function tells whether all conditions in it have one bit. -/
theorem functionText_retold
    (readable : ∀ inst ∈ f.instructions, ∀ p ∈ inst.op.positions, p.2.ReadableAt p.1) :
    Retold (∀ inst ∈ f.instructions, inst.op.Steady) (functionText m f)
      (functionText m.reread (f.reread m)) := by
  obtain ⟨head, first⟩ := Option.isSome_iff_exists.mp
    (headText_isSome.mpr fun id mem => (known.singleAssignment.params id mem).1)
  have again := (headText_reread known).trans first
  have readable : ∀ b ∈ f.blocks, ∀ inst ∈ b.insts, ∀ p ∈ inst.op.positions, p.2.ReadableAt p.1 :=
    fun b mem inst among => readable inst (List.mem_flatMap.mpr ⟨b, mem, among⟩)
  cases blocks : f.blocks with
  | nil =>
    have reread : (f.reread m).blocks = [] := by simp [Function.reread, blocks]
    refine ⟨_, _, ?_, ?_, (Tells.refl ("declare " ++ head ++ "\n")).cast ?_⟩
    · rw [functionText, blocks, first]
      rfl
    · rw [functionText, reread, again]
      rfl
    · simp [Function.instructions, blocks]
  | cons entry others =>
    have mem : ∀ b ∈ entry :: others, b ∈ f.blocks := fun b => by rw [blocks]; exact id
    have reread : (f.reread m).blocks =
        entry.reread m f.number :: others.map (·.reread m f.number) := by
      simp [Function.reread, blocks]
    obtain ⟨a, b, here, there, tells⟩ := blockLines_retold known functions
      (mem entry List.mem_cons_self) (readable entry (mem entry List.mem_cons_self)) true
    obtain ⟨as, bs, heres, theres, all⟩ := Retold.join fun b among =>
      blockLines_retold known functions (mem b (.tail _ among)) (readable b (mem b (.tail _ among)))
        false
    have whole := (tells.append (all "\n" "")).between ("define " ++ head ++ " \x7b\n") "\x7d\n"
    simp only [String.append_empty] at whole
    refine ⟨_, _, ?_, ?_, whole.cast ?_⟩
    · rw [functionText, blocks]
      simp only [here, heres, first, Option.bind_eq_bind, Option.bind_some, intercalate_cons]
      rfl
    · rw [functionText, reread]
      simp only [there, theres, again, Option.bind_eq_bind, Option.bind_some, intercalate_cons]
      rfl
    · rw [Function.instructions, blocks, List.forall_mem_flatMap, List.forall_mem_cons]

end

theorem Global.text_reread {g : Global} (stable : ∀ c ∈ g.initial, c.StableAt g.ty) :
    globalText g.reread = globalText g := by
  cases initial : g.initial with
  | none => simp [globalText, Global.reread, initial]
  | some c =>
    have same := Constant.StableAt.text_reread (stable c initial)
    simp [globalText, Global.reread, initial, same]

/-- The text of a module that is read from its text is that text, just if all conditions in it have
one bit. -/
theorem moduleText_retold {m : Module} (known : ∀ f ∈ m.functions, f.FromText m)
    (initials : ∀ g ∈ m.globals, ∀ c ∈ g.initial, c.StableAt g.ty)
    (readable : ∀ f ∈ m.functions, ∀ inst ∈ f.instructions, ∀ p ∈ inst.op.positions,
      p.2.ReadableAt p.1) :
    Retold (∀ f ∈ m.functions, ∀ inst ∈ f.instructions, inst.op.Steady) (moduleText m)
      (moduleText m.reread) := by
  let line (m : Module) (f : Function) : Option String := do return "\n" ++ (← functionText m f)
  have each : ∀ f ∈ m.functions, Retold (∀ inst ∈ f.instructions, inst.op.Steady) (line m f)
      (line m.reread (f.reread m)) := by
    intro f mem
    obtain ⟨a, b, here, there, tells⟩ := functionText_retold (known f mem) known (readable f mem)
    have tells := tells.between "\n" ""
    simp only [String.append_empty] at tells
    exact ⟨_, _, by simp only [line, here]; rfl, by simp only [line, there]; rfl, tells⟩
  have globals : m.reread.globals.map globalText = m.globals.map globalText := by
    rw [Module.reread, List.map_map]
    exact List.map_congr_left fun g mem => Global.text_reread (initials g mem)
  obtain ⟨as, bs, here, there, tells⟩ := Retold.join each
  have tells := (tells "" "").between
    ("; ModuleID = '" ++ m.name ++ "'\n" ++ propertyText "source_filename" m.sourceFilename ++
      propertyText "target datalayout" m.datalayout ++ propertyText "target triple" m.triple ++
      sectionText m.comdats ++ sectionText (m.globals.map globalText))
    (sectionText m.attributeGroups ++ sectionText ((nodes m).map Node.text))
  simp only [String.empty_append, String.append_empty, List.map_id'] at tells
  refine ⟨_, _, ?_, ?_, tells⟩
  · change ((m.functions.mapM (line m)).bind _) = _
    rw [here, ← map_text_nodes]
    simp only [Option.bind_some, String.append_assoc]
    rfl
  · change (((m.functions.map (·.reread m)).mapM (line m.reread)).bind _) = _
    rw [there, ← map_text_nodes, globals]
    simp only [Option.bind_some, String.append_assoc]
    rfl

end BlockTally
