import BlockTally.Load
import BlockTally.Proofs.Tally.Steps
import BlockTally.Proofs.Wellformed

/-! When a module is still valid after counting. It is, except where the hook would be called before
a phi, or where a terminator bears the number of a value that counting adds to its block. Main
statement: `count_isValid_iff`. -/
namespace BlockTally.Tally

/-- The first instruction of all is a phi. -/
def OpensWithPhi (f : Function) : Prop :=
  ∃ b inst, f.blocks[0]? = some b ∧ b.insts[0]? = some inst ∧ inst.op.isPhi = true

/-- The last definition of a number that counting gives to a new value of a block is the terminator
of this block. No value has the number yet, so that this is no redefinition. -/
def TakesNewValue (f : Function) : Prop :=
  ∃ k b j, f.blocks[k]? = some b ∧ j < 2 ∧
    definition? f.definitions ⟨f.values.length + 2 * k + j⟩ = some ⟨k, b.insts.length - 1⟩

private theorem getElem?_append_eq_some {α : Type} {l l' : List α} {i : Nat} {a : α} :
    (l ++ l')[i]? = some a ↔ l[i]? = some a ∨ ∃ j, l'[j]? = some a ∧ i = l.length + j := by
  rw [List.getElem?_append]
  split
  · next inside =>
    refine ⟨.inl, ?_⟩
    rintro (here | ⟨j, -, rfl⟩)
    · exact here
    · omega
  · next outside =>
    constructor
    · intro here
      exact .inr ⟨_, here, by omega⟩
    · rintro (here | ⟨j, here, rfl⟩)
      · exact absurd (List.getElem?_eq_some_iff.mp here).1 outside
      · simpa using here

/-- Where an instruction of a block of `size` instructions comes to stand, behind `lead` others and,
if it is the last, behind the increment. -/
def movedIndex (lead size i : Nat) : Nat := lead + i + if i + 1 = size then 3 else 0

private theorem movedIndex_lt {lead size i j : Nat} (before : i < j) (inside : j < size) :
    movedIndex lead size i < movedIndex lead size j := by
  unfold movedIndex
  split <;> split <;> omega

theorem countedBlock_eq (before : List Instruction) (counter : GlobalId) (first : Nat) {b : Block}
    (ends : b.terminator?.isSome) : ∃ last, b.terminator? = some last ∧
      (countedBlock before counter first b).insts =
        before ++ b.insts.dropLast ++ increments counter first ++ [last] := by
  obtain ⟨last, ends⟩ := Option.isSome_iff_exists.mp ends
  obtain ⟨-, front, whole⟩ := Block.terminator?_eq_some.mp ends
  exact ⟨last, ends, by simp [countedBlock, whole]⟩

private theorem countedBlock_terminator? (before : List Instruction) (counter : GlobalId)
    (first : Nat) {b : Block} (ends : b.terminator?.isSome) :
    (countedBlock before counter first b).terminator? = b.terminator? := by
  obtain ⟨last, known, whole⟩ := countedBlock_eq before counter first ends
  rw [known, Block.terminator?_eq_some]
  exact ⟨(Block.terminator?_eq_some.mp known).1, _, whole⟩

private theorem countedBlock_dropLast (before : List Instruction) (counter : GlobalId) (first : Nat)
    {b : Block} (ends : b.terminator?.isSome) :
    (countedBlock before counter first b).insts.dropLast =
      before ++ b.insts.dropLast ++ increments counter first := by
  obtain ⟨last, -, whole⟩ := countedBlock_eq before counter first ends
  rw [whole, List.dropLast_concat]

private theorem countedBlock_insts {before : List Instruction} {counter : GlobalId} {first : Nat}
    {b : Block} {i : Nat} {inst : Instruction} (ends : b.terminator?.isSome) :
    (countedBlock before counter first b).insts[i]? = some inst ↔
      before[i]? = some inst ∨
      (∃ j, b.insts[j]? = some inst ∧ i = movedIndex before.length b.insts.length j) ∨
      ∃ j, (increments counter first)[j]? = some inst ∧
        i = before.length + (b.insts.length - 1) + j := by
  obtain ⟨last, ends⟩ := Option.isSome_iff_exists.mp ends
  obtain ⟨-, front, whole⟩ := Block.terminator?_eq_some.mp ends
  have three : (increments counter first).length = 3 := rfl
  simp only [countedBlock, whole, List.dropLast_concat, List.getLast?_concat, Option.toList_some,
    List.append_assoc, getElem?_append_eq_some, List.length_append, List.length_singleton,
    Nat.add_sub_cancel, three, movedIndex]
  have alone : ∀ j, [last][j]? = some inst ↔ j = 0 ∧ last = inst := by
    intro j
    cases j <;> simp
  simp only [alone]
  constructor
  · rintro (lead | ⟨_, here | ⟨_, new | ⟨_, ⟨rfl, rfl⟩, rfl⟩, rfl⟩, rfl⟩)
    · exact .inl lead
    · have inside := (List.getElem?_eq_some_iff.mp here).1
      exact .inr (.inl ⟨_, .inl here, by simp; omega⟩)
    · exact .inr (.inr ⟨_, new, by omega⟩)
    · exact .inr (.inl ⟨_, .inr ⟨0, ⟨rfl, rfl⟩, rfl⟩, by simp; omega⟩)
  · rintro (lead | ⟨j, here | ⟨_, ⟨rfl, rfl⟩, rfl⟩, rfl⟩ | ⟨j, new, rfl⟩)
    · exact .inl lead
    · have inside := (List.getElem?_eq_some_iff.mp here).1
      exact .inr ⟨j, .inl here, by simp; omega⟩
    · exact .inr ⟨_, .inr ⟨_, .inr ⟨0, ⟨rfl, rfl⟩, rfl⟩, rfl⟩, by simp; omega⟩
    · exact .inr ⟨_, .inr ⟨j, .inl new, rfl⟩, by omega⟩

section
variable {before : List Instruction} {counter : GlobalId} {f f' : Function}

/-- Where an instruction comes to stand in a counted function. -/
def moved (before : List Instruction) (f : Function) (d : Site) : Site :=
  ⟨d.block, movedIndex (if d.block = 0 then before else []).length
    ((f.blocks[d.block]?.map (·.insts.length)).getD 0) d.index⟩

/-- The place of the first instruction of an increment. -/
def incrementSite (before : List Instruction) (k : Nat) (b : Block) : Site :=
  ⟨k, (if k = 0 then before else []).length + (b.insts.length - 1)⟩

private theorem moved_before {d d' : Site} {inst : Instruction} {b : Block}
    (here : f.blocks[d'.block]? = some b) (there : b.insts[d'.index]? = some inst)
    (order : d.Before d') : (moved before f d).Before (moved before f d') := by
  rcases order with earlier | ⟨same, less⟩
  · exact .inl earlier
  · have inside := (List.getElem?_eq_some_iff.mp there).1
    refine .inr ⟨same, ?_⟩
    simp only [moved, same, here, Option.map_some, Option.getD_some]
    exact movedIndex_lt less inside

theorem Counted.insts_iff (counted : Counted before counter f f') {k i : Nat} {b : Block}
    {inst : Instruction} (here : f.blocks[k]? = some b) :
    (countedBlock (if k = 0 then before else []) counter (f.values.length + 2 * k) b).insts[i]? =
        some inst ↔
      (k = 0 ∧ before[i]? = some inst) ∨
      (∃ j, b.insts[j]? = some inst ∧ i = (moved before f ⟨k, j⟩).index) ∨
      ∃ j, (increments counter (f.values.length + 2 * k))[j]? = some inst ∧
        i = (incrementSite before k b).index + j := by
  rw [countedBlock_insts (counted.ended b (List.mem_of_getElem? here))]
  have lead : (if k = 0 then before else [])[i]? = some inst ↔ k = 0 ∧ before[i]? = some inst := by
    split <;> simp [*]
  simp only [lead, moved, incrementSite, here, Option.map_some, Option.getD_some]

private theorem moved_not_before {d d' : Site} {id : ValueId} (mem : (id, d) ∈ f.definitions)
    (order : ¬ d.Before d') : ¬ (moved before f d).Before (moved before f d') := by
  obtain ⟨b, inst, here, there, -⟩ := Function.mem_definitions.mp mem
  rcases Site.before_total d d' with rfl | earlier | later
  · exact Site.Before.irrefl _
  · exact absurd earlier order
  · exact (moved_before here there later).asymm

/-- Every result in a counted function is an old one that has moved, or new. -/
theorem Counted.mem_definitions (counted : Counted before counter f f')
    (silent : ∀ inst ∈ before, inst.result = none) {id : ValueId} {d : Site} :
    (id, d) ∈ f'.definitions ↔ (∃ old, (id, old) ∈ f.definitions ∧ d = moved before f old) ∨
      ∃ b j, f.blocks[d.block]? = some b ∧ j < 2 ∧
        id = ⟨f.values.length + 2 * d.block + j⟩ ∧
        d.index = (incrementSite before d.block b).index + j := by
  simp only [Function.mem_definitions, counted.blocks, List.getElem?_mapIdx, Option.map_eq_some_iff]
  constructor
  · rintro ⟨_, inst, ⟨b, here, rfl⟩, there, defines⟩
    rcases (counted.insts_iff here).mp there with ⟨-, lead⟩ | ⟨j, old, place⟩ | ⟨j, new, place⟩
    · rw [silent inst (List.mem_of_getElem? lead)] at defines
      cases defines
    · exact .inl ⟨⟨d.block, j⟩, ⟨b, inst, here, old, defines⟩, by cases d; simp_all [moved]⟩
    · refine .inr ⟨b, j, here, ?_⟩
      rcases j with _ | _ | _ | j
      · cases new
        cases defines
        exact ⟨by omega, rfl, place⟩
      · cases new
        cases defines
        exact ⟨by omega, rfl, place⟩
      · cases new
        cases defines
      · simp [increments] at new
  · rintro (⟨old, ⟨b, inst, here, there, defines⟩, rfl⟩ | ⟨b, j, here, less, rfl, place⟩)
    · exact ⟨_, inst, ⟨b, here, rfl⟩, (counted.insts_iff here).mpr (.inr (.inl ⟨_, there, rfl⟩)),
        defines⟩
    · obtain ⟨inst, new, defines⟩ : ∃ inst,
          (increments counter (f.values.length + 2 * d.block))[j]? = some inst ∧
            inst.result = some ⟨f.values.length + 2 * d.block + j⟩ := by
        obtain rfl | rfl : j = 0 ∨ j = 1 := by omega
        · exact ⟨_, rfl, rfl⟩
        · exact ⟨_, rfl, rfl⟩
      exact ⟨_, inst, ⟨b, here, rfl⟩, (counted.insts_iff here).mpr (.inr (.inr ⟨j, new, place⟩)),
        defines⟩

/-- A value that the table had before is defined where its definition has moved to. -/
theorem Counted.definition?_old (counted : Counted before counter f f')
    (silent : ∀ inst ∈ before, inst.result = none) {id : ValueId}
    (old : id.index < f.values.length) :
    definition? f'.definitions id = (definition? f.definitions id).map (moved before f) := by
  have from_old : ∀ {d}, (id, d) ∈ f'.definitions →
      ∃ d₀, (id, d₀) ∈ f.definitions ∧ d = moved before f d₀ := by
    intro d mem
    rcases (counted.mem_definitions silent).mp mem with found | ⟨_, j, -, -, rfl, -⟩
    · exact found
    · simp at old
      omega
  cases last : definition? f.definitions id with
  | none =>
    refine Option.not_isSome_iff_eq_none.mp fun some => ?_
    obtain ⟨d, mem⟩ := Function.definition?_isSome.mp some
    obtain ⟨d₀, mem₀, -⟩ := from_old mem
    simpa [last] using Function.definition?_isSome.mpr ⟨d₀, mem₀⟩
  | some d =>
    obtain ⟨mem, latest⟩ := Function.definition?_eq_some.mp last
    refine Function.definition?_eq_some.mpr ⟨(counted.mem_definitions silent).mpr
      (.inl ⟨d, mem, rfl⟩), ?_⟩
    intro d' mem'
    obtain ⟨d₀, mem₀, rfl⟩ := from_old mem'
    exact moved_not_before mem (latest d₀ mem₀)

theorem Counted.valueUsable (counted : Counted before counter f f')
    (silent : ∀ inst ∈ before, inst.result = none) {site : Site} {b : Block} {inst : Instruction}
    {isPhi : Bool} {id : ValueId} (here : f.blocks[site.block]? = some b)
    (there : b.insts[site.index]? = some inst) (usable : ValueUsable f site isPhi id) :
    ValueUsable f' (moved before f site) isPhi id := by
  obtain ⟨v, found, defined⟩ := usable
  have old : id.index < f.values.length := (List.getElem?_eq_some_iff.mp found).1
  refine ⟨v, (counted.value?_old old).trans found, ?_⟩
  intro made
  obtain ⟨d, last, order⟩ := defined made
  refine ⟨moved before f d, by rw [counted.definition?_old silent old, last]; rfl, ?_⟩
  intro no_phi same
  have earlier : d.Before site := .inr ⟨same, order no_phi same⟩
  rcases moved_before here there earlier with elsewhere | ⟨-, less⟩
  · exact absurd same (Nat.ne_of_lt elsewhere)
  · exact less

theorem Counted.value?_new (counted : Counted before counter f f') {k j : Nat} {b : Block}
    (here : f.blocks[k]? = some b) (less : j < 2) :
    ∃ v, f'.value? ⟨f.values.length + 2 * k + j⟩ = some v ∧ v.ty = .i64 ∧
      v.origin = .instruction := by
  obtain ⟨added, grown, size, fresh⟩ := counted.values
  have inside := (List.getElem?_eq_some_iff.mp here).1
  have new : 2 * k + j < added.length := by omega
  refine ⟨added[2 * k + j], ?_, fresh.typed _ (List.getElem_mem new)⟩
  rw [Function.value?, grown, List.getElem?_append_right (by simp; omega)]
  simp only [Nat.add_assoc, Nat.add_sub_cancel_left, List.getElem?_eq_getElem new]

theorem Counted.moved_last (counted : Counted before counter f f') {k : Nat} {b : Block}
    (here : f.blocks[k]? = some b) :
    moved before f ⟨k, b.insts.length - 1⟩ = ⟨k, (incrementSite before k b).index + 3⟩ := by
  obtain ⟨last, ends⟩ := Option.isSome_iff_exists.mp
    (counted.ended b (List.mem_of_getElem? here))
  obtain ⟨-, front, whole⟩ := Block.terminator?_eq_some.mp ends
  simp [moved, incrementSite, movedIndex, here, whole]

private theorem moved_inner (before : List Instruction) {k i : Nat} {b : Block} {inst : Instruction}
    (here : f.blocks[k]? = some b) (there : b.insts[i]? = some inst)
    (inner : i ≠ b.insts.length - 1) :
    (moved before f ⟨k, i⟩).index < (incrementSite before k b).index := by
  have inside := (List.getElem?_eq_some_iff.mp there).1
  have not_last : i + 1 ≠ b.insts.length := by omega
  simp only [moved, movedIndex, incrementSite, here, Option.map_some, Option.getD_some, not_last,
    if_false]
  omega

theorem Counted.newValue_defined (counted : Counted before counter f f')
    (silent : ∀ inst ∈ before, inst.result = none) {k j : Nat} {b : Block}
    (here : f.blocks[k]? = some b) (less : j < 2) :
    (⟨f.values.length + 2 * k + j⟩, ⟨k, (incrementSite before k b).index + j⟩) ∈ f'.definitions :=
  (counted.mem_definitions silent).mpr (.inr ⟨b, j, here, less, rfl, rfl⟩)

/-- A terminator that bears the number of a new value of its block is behind the increment. -/
theorem Counted.definition?_taken (counted : Counted before counter f f')
    (silent : ∀ inst ∈ before, inst.result = none) {k j : Nat} {b : Block}
    (here : f.blocks[k]? = some b) (less : j < 2)
    (taken : definition? f.definitions ⟨f.values.length + 2 * k + j⟩ =
      some ⟨k, b.insts.length - 1⟩) :
    definition? f'.definitions ⟨f.values.length + 2 * k + j⟩ =
      some ⟨k, (incrementSite before k b).index + 3⟩ := by
  obtain ⟨mem, latest⟩ := Function.definition?_eq_some.mp taken
  rw [← counted.moved_last here]
  refine Function.definition?_eq_some.mpr
    ⟨(counted.mem_definitions silent).mpr (.inl ⟨_, mem, rfl⟩), ?_⟩
  intro d' mem'
  rcases (counted.mem_definitions silent).mp mem' with
    ⟨d₀, mem₀, rfl⟩ | ⟨b', j', here', _, same, place⟩
  · exact moved_not_before mem (latest d₀ mem₀)
  · obtain ⟨block, index⟩ := d'
    simp only [ValueId.mk.injEq] at same place here'
    obtain rfl : block = k := by omega
    rw [here] at here'
    cases here'
    simp only [counted.moved_last here, Site.Before, place]
    omega

/-- A last definition in the block of a new value is where the increment has it, unless the
terminator bears its number. -/
theorem Counted.definition?_kept (counted : Counted before counter f f')
    (silent : ∀ inst ∈ before, inst.result = none) {k j index : Nat} {b : Block}
    (here : f.blocks[k]? = some b) (less : j < 2)
    (kept : definition? f.definitions ⟨f.values.length + 2 * k + j⟩ ≠ some ⟨k, b.insts.length - 1⟩)
    (last : definition? f'.definitions ⟨f.values.length + 2 * k + j⟩ = some ⟨k, index⟩) :
    index = (incrementSite before k b).index + j := by
  obtain ⟨mem, latest⟩ := Function.definition?_eq_some.mp last
  rcases (counted.mem_definitions silent).mp mem with
    ⟨⟨block, i⟩, mem₀, same⟩ | ⟨b', j', there, -, same, place⟩
  · exfalso
    obtain ⟨rfl, rfl⟩ := Site.mk.inj same
    obtain ⟨b', inst, there, holds, -⟩ := Function.mem_definitions.mp mem₀
    rw [here] at there
    cases there
    have behind := latest _ (counted.newValue_defined silent here less)
    by_cases terminal : i = b.insts.length - 1
    · subst terminal
      refine kept (Function.definition?_eq_some.mpr ⟨mem₀, ?_⟩)
      intro d' mem' later
      obtain ⟨b'', inst', there', holds', -⟩ := Function.mem_definitions.mp mem'
      exact latest _ ((counted.mem_definitions silent).mpr (.inl ⟨d', mem', rfl⟩))
        (moved_before there' holds' later)
    · have early := moved_inner before here holds terminal
      exact behind (.inr ⟨rfl, Nat.lt_of_lt_of_le early (Nat.le_add_right _ _)⟩)
  · simp only [ValueId.mk.injEq] at same place there
    rw [here] at there
    cases there
    omega

/-- A new value can be used behind its definition unless its number is taken by the terminator. -/
theorem Counted.newUsable_iff (counted : Counted before counter f f')
    (silent : ∀ inst ∈ before, inst.result = none) {k j : Nat} {b : Block}
    (here : f.blocks[k]? = some b) (less : j < 2) :
    ValueUsable f' ⟨k, (incrementSite before k b).index + (j + 1)⟩ false
        ⟨f.values.length + 2 * k + j⟩ ↔
      definition? f.definitions ⟨f.values.length + 2 * k + j⟩ ≠ some ⟨k, b.insts.length - 1⟩ := by
  obtain ⟨v, found, -, made⟩ := counted.value?_new here less
  constructor
  · rintro ⟨w, there, defined⟩ taken
    obtain rfl : v = w := Option.some.inj (found.symm.trans there)
    obtain ⟨d, last, order⟩ := defined made
    rw [counted.definition?_taken silent here less taken, Option.some.injEq] at last
    subst last
    have := order rfl rfl
    simp only at this
    omega
  · intro kept
    refine ⟨v, found, fun _ => ?_⟩
    obtain ⟨⟨block, index⟩, last⟩ := Option.isSome_iff_exists.mp
      (Function.definition?_isSome.mpr ⟨_, counted.newValue_defined silent here less⟩)
    refine ⟨_, last, fun _ same => ?_⟩
    obtain rfl : block = k := same
    have place := counted.definition?_kept silent here less kept last
    simp only
    omega

/-- The tables of a module that an operand or a call looks into, when they have only grown. -/
structure Extends (m m' : Module) : Prop where
  globals : ∀ id, (m.global? id).isSome → (m'.global? id).isSome
  functions : ∀ id g, m.function? id = some g → ∃ g', m'.function? id = some g' ∧
    g'.params = g.params ∧ g'.variadic = g.variadic

theorem Counted.operandUsable {m m' : Module} (larger : Extends m m')
    (counted : Counted before counter f f') (silent : ∀ inst ∈ before, inst.result = none)
    {site : Site} {b : Block} {inst : Instruction} {isPhi : Bool} {o : Operand}
    (here : f.blocks[site.block]? = some b) (there : b.insts[site.index]? = some inst)
    (usable : OperandUsable m f site isPhi o) :
    OperandUsable m' f' (moved before f site) isPhi o := by
  cases o with
  | value id => exact counted.valueUsable silent here there usable
  | global id => exact larger.globals id usable
  | function id =>
    obtain ⟨g, found⟩ := Option.isSome_iff_exists.mp usable
    obtain ⟨g', found', -⟩ := larger.functions id g found
    exact Option.isSome_iff_exists.mpr ⟨g', found'⟩
  | constant => trivial

private theorem isPointer_counted (counted : Counted before counter f f') {ptr : Operand}
    (pointer : isPointer f ptr = true) : isPointer f' ptr = true := by
  cases ptr with
  | value id =>
    obtain ⟨v, found, -⟩ := (Option.any_eq_true _ _).mp pointer
    have old : id.index < f.values.length := (List.getElem?_eq_some_iff.mp found).1
    rwa [isPointer, counted.value?_old old]
  | global | function => rfl
  | constant c =>
    cases c with
    | int => cases pointer
    | _ => rfl

private theorem callDefects_extends {m m' : Module} (larger : Extends m m') {g g' : Function}
    {site : CallSite} (known : ∀ id, site.callee = .function id → (m.function? id).isSome)
    (sound : callDefects m g site = []) : callDefects m' g' site = [] := by
  unfold callDefects at *
  cases callee : site.callee.function? with
  | none => rfl
  | some id =>
    obtain ⟨_, found⟩ : ∃ h, m.function? id = some h := by
      refine Option.isSome_iff_exists.mp (known id ?_)
      cases named : site.callee <;> rw [named] at callee <;> cases callee
      rfl
    obtain ⟨h', found', params, variadic⟩ := larger.functions id _ found
    simp only [callee, Option.bind_some, found, found', params, variadic] at sound ⊢
    split at sound
    · next fits => rw [if_pos fits]
    · cases sound

theorem Counted.operationSound {m m' : Module} (larger : Extends m m')
    (counted : Counted before counter f f') {op : Operation} {site : Site} {isPhi : Bool}
    (operands : ∀ o ∈ op.operands, OperandUsable m f site isPhi o)
    (sound : operationDefects m f op = []) : operationDefects m' f' op = [] := by
  have ret : f'.ret = f.ret := by rw [counted.frame]
  have name : f'.name = f.name := by rw [counted.frame]
  cases op with
  | call callSite | invoke callSite =>
    refine callDefects_extends larger (fun id named => ?_) sound
    have usable := operands callSite.callee List.mem_cons_self
    rwa [named] at usable
  | ret =>
    simp only [operationDefects, ret, name] at sound ⊢
    exact sound
  | load _ ptr | store _ _ ptr =>
    have pointer : isPointer f ptr = true := by
      by_contra bad
      simp [operationDefects, bad] at sound
    simp [operationDefects, isPointer_counted counted pointer]
  | _ => rfl

/-- What stands before the first block: nothing, or a call that is fit for its callee. -/
inductive Lead (m' : Module) : List Instruction → Prop
  | none : Lead m' []
  | hook {hook : FuncId} {g : Function} (found : m'.function? hook = some g)
      (nullary : g.params = []) : Lead m' [hookCall hook]

theorem Lead.silent {m' : Module} {before : List Instruction} (lead : Lead m' before) :
    ∀ inst ∈ before, inst.result = Option.none := by
  cases lead <;> simp [hookCall]

theorem Lead.plain {m' : Module} {before : List Instruction} (lead : Lead m' before)
    {inst : Instruction} (mem : inst ∈ before) :
    inst.op.isPhi = false ∧ inst.op.isTerminator = false := by
  cases lead with
  | none => cases mem
  | hook =>
    obtain rfl := List.mem_singleton.mp mem
    exact ⟨rfl, rfl⟩

theorem Lead.sound {m' : Module} {before : List Instruction} (lead : Lead m' before)
    {inst : Instruction} {b : Block} {site : Site} (mem : inst ∈ before) :
    InstructionSound m' f' b site inst := by
  cases lead with
  | none => cases mem
  | @hook hook g found nullary =>
    obtain rfl := List.mem_singleton.mp mem
    have passes : callDefects m' f' ⟨.void, .function hook, []⟩ = [] := by
      simp [callDefects, Operand.function?, found, nullary]
    refine ⟨?_, ?_, ?_, passes⟩
    · intro phi
      cases phi
    · simp [hookCall, Operation.targets, Operation.successors]
    · simp [hookCall, Operation.operands, OperandUsable, found]

/-- Old instructions stay sound in their new places, unless a phi stands behind the hook now. -/
theorem Counted.oldSound {m m' : Module} (larger : Extends m m')
    (counted : Counted before counter f f') (lead : Lead m' before) {k i : Nat} {b : Block}
    {inst : Instruction} (here : f.blocks[k]? = some b) (there : b.insts[i]? = some inst)
    (clear : inst.op.isPhi = true → k = 0 → before = [])
    (sound : InstructionSound m f b ⟨k, i⟩ inst) :
    InstructionSound m' f' (countedBlock (if k = 0 then before else []) counter
      (f.values.length + 2 * k) b) (moved before f ⟨k, i⟩) inst := by
  refine ⟨?_, ?_, ?_, counted.operationSound larger sound.operands sound.operation⟩
  · intro phi j earlier below at_j
    have inner : i ≠ b.insts.length - 1 := by
      intro last
      obtain ⟨last', ends⟩ := Option.isSome_iff_exists.mp
        (counted.ended b (List.mem_of_getElem? here))
      obtain ⟨leaves, front, whole⟩ := Block.terminator?_eq_some.mp ends
      obtain rfl : i = front.length := by simpa [whole] using last
      obtain rfl : last' = inst := by simpa [whole] using there
      cases op : last'.op <;> simp [op, Operation.isPhi, Operation.isTerminator] at phi leaves
    have early := moved_inner before here there inner
    rcases (counted.insts_iff here).mp at_j with ⟨first, lead⟩ | ⟨j', old, rfl⟩ | ⟨j', -, rfl⟩
    · rw [clear phi first] at lead
      cases lead
    · refine sound.phi phi j' earlier ?_ old
      by_contra behind
      rcases Nat.eq_or_lt_of_le (Nat.not_lt.mp behind) with rfl | later
      · exact Nat.lt_irrefl _ below
      · rcases moved_before here old (.inr ⟨rfl, later⟩ : Site.Before ⟨k, i⟩ ⟨k, j'⟩) with
          elsewhere | ⟨-, less⟩
        · exact Nat.lt_irrefl _ elsewhere
        · exact Nat.lt_asymm below less
    · omega
  · intro id mem
    obtain ⟨target, found⟩ := Option.isSome_iff_exists.mp (sound.targets id mem)
    rw [Function.block?] at found ⊢
    simp [counted.blocks, found]
  · intro o mem
    exact counted.operandUsable larger lead.silent here there (sound.operands o mem)

/-- The increment is sound where the terminator does not take one of its numbers. -/
theorem Counted.incrementSound {m' : Module} (known : (m'.global? counter).isSome)
    (counted : Counted before counter f f') (lead : Lead m' before) {k j : Nat} {b b' : Block}
    {inst : Instruction} (here : f.blocks[k]? = some b) (clear : ¬ TakesNewValue f)
    (new : (increments counter (f.values.length + 2 * k))[j]? = some inst) :
    InstructionSound m' f' b' ⟨k, (incrementSite before k b).index + j⟩ inst := by
  have usable : ∀ i, i < 2 → ValueUsable f' ⟨k, (incrementSite before k b).index + (i + 1)⟩ false
      ⟨f.values.length + 2 * k + i⟩ := by
    intro i less
    refine (counted.newUsable_iff lead.silent here less).mpr fun taken => ?_
    exact clear ⟨k, b, i, here, less, taken⟩
  match j with
  | 0 =>
    cases new
    exact ⟨by simp [Operation.isPhi], by simp [Operation.targets, Operation.successors],
      by simpa [Operation.operands, OperandUsable] using known, rfl⟩
  | 1 =>
    cases new
    refine ⟨by simp [Operation.isPhi], by simp [Operation.targets, Operation.successors], ?_, rfl⟩
    simpa [Operation.operands, OperandUsable, Operand.int, Operation.isPhi] using
      usable 0 (by omega)
  | 2 =>
    cases new
    refine ⟨by simp [Operation.isPhi], by simp [Operation.targets, Operation.successors], ?_, rfl⟩
    simpa [Operation.operands, OperandUsable, Operation.isPhi] using ⟨usable 1 (by omega), known⟩
  | j + 3 => simp [increments] at new

theorem Counted.block_at (counted : Counted before counter f f') {k : Nat} {b : Block}
    (here : f.blocks[k]? = some b) : f'.blocks[k]? =
      some (countedBlock (if k = 0 then before else []) counter (f.values.length + 2 * k) b) := by
  simp [counted.blocks, List.getElem?_mapIdx, here]

/-- A phi that the hook stands before is out of place. -/
theorem Counted.not_opensWithPhi {m' : Module} (counted : Counted before counter f f')
    (lead : Lead m' before) (sound : ∀ k b, f'.blocks[k]? = some b → BlockSound m' f' b k)
    (led : before ≠ []) : ¬ OpensWithPhi f := by
  rintro ⟨b, inst, here, there, phi⟩
  obtain ⟨first, rest, rfl⟩ := List.exists_cons_of_ne_nil led
  have phi_there := (counted.insts_iff here).mpr (.inr (.inl ⟨0, there, rfl⟩))
  have hook_there := (counted.insts_iff here).mpr (.inl ⟨rfl, (rfl : (first :: rest)[0]? = _)⟩)
  have hook_is_phi := ((sound 0 _ (counted.block_at here)).instructions _ inst phi_there).phi phi 0
    first (by simp only [moved, movedIndex, if_pos, List.length_cons]; omega) hook_there
  rw [(lead.plain List.mem_cons_self).1] at hook_is_phi
  cases hook_is_phi

/-- Each new value is used right behind its definition. -/
theorem Counted.not_takesNewValue {m' : Module} (counted : Counted before counter f f')
    (lead : Lead m' before) (sound : ∀ k b, f'.blocks[k]? = some b → BlockSound m' f' b k) :
    ¬ TakesNewValue f := by
  rintro ⟨k, b, j, here, less, taken⟩
  refine (counted.newUsable_iff lead.silent here less).mp ?_ taken
  have instructions := (sound k _ (counted.block_at here)).instructions
  match j with
  | 0 =>
    have add_there := (counted.insts_iff here).mpr (.inr (.inr ⟨1, rfl, rfl⟩))
    exact (instructions _ _ add_there).operands _ List.mem_cons_self
  | 1 =>
    have store_there := (counted.insts_iff here).mpr (.inr (.inr ⟨2, rfl, rfl⟩))
    exact (instructions _ _ store_there).operands _ List.mem_cons_self

/-- A counted block is sound if the old one was and nothing gets out of place. -/
theorem Counted.blockSound {m m' : Module} (larger : Extends m m')
    (known : (m'.global? counter).isSome) (counted : Counted before counter f f')
    (lead : Lead m' before) (clear : before ≠ [] → ¬ OpensWithPhi f) (kept : ¬ TakesNewValue f)
    {k : Nat} {b : Block} (here : f.blocks[k]? = some b) (old : BlockSound m f b k) :
    BlockSound m' f' (countedBlock (if k = 0 then before else []) counter
      (f.values.length + 2 * k) b) k := by
  refine ⟨?_, ?_, ?_⟩
  · rw [countedBlock_terminator? _ _ _ old.ended]
    exact old.ended
  · rw [countedBlock_dropLast _ _ _ old.ended]
    intro inst mem
    simp only [List.mem_append] at mem
    rcases mem with (lead' | inside) | new
    · split at lead'
      · exact (lead.plain lead').2
      · cases lead'
    · exact old.inner inst inside
    · simp only [increments, List.mem_cons, List.not_mem_nil, or_false] at new
      rcases new with rfl | rfl | rfl <;> rfl
  · intro i inst there
    rcases (counted.insts_iff here).mp there with ⟨rfl, at_i⟩ | ⟨j, at_j, rfl⟩ | ⟨j, at_j, rfl⟩
    · exact lead.sound (List.mem_of_getElem? at_i)
    · refine counted.oldSound larger lead here at_j ?_ (old.instructions j inst at_j)
      -- A phi of the first block has only phis before it, so the block begins with one.
      rintro phi rfl
      by_contra led
      have inside := (List.getElem?_eq_some_iff.mp at_j).1
      have first : b.insts[0]? = some b.insts[0] := List.getElem?_eq_getElem (by omega)
      refine clear led ⟨b, b.insts[0], here, first, ?_⟩
      rcases Nat.eq_zero_or_pos j with rfl | later
      · rw [at_j, Option.some.injEq] at first
        exact first ▸ phi
      · exact (old.instructions j inst at_j).phi phi 0 _ later first
    · exact counted.incrementSound known lead here kept at_j

theorem Counted.sound_iff {m m' : Module} (larger : Extends m m')
    (known : (m'.global? counter).isSome) (counted : Counted before counter f f')
    (lead : Lead m' before) (valid : ∀ k b, f.blocks[k]? = some b → BlockSound m f b k) :
    (∀ k b, f'.blocks[k]? = some b → BlockSound m' f' b k) ↔
      (before ≠ [] → ¬ OpensWithPhi f) ∧ ¬ TakesNewValue f := by
  constructor
  · intro sound
    exact ⟨counted.not_opensWithPhi lead sound, counted.not_takesNewValue lead sound⟩
  · rintro ⟨clear, kept⟩ k b' there
    rw [counted.blocks, List.getElem?_mapIdx, Option.map_eq_some_iff] at there
    obtain ⟨b, here, rfl⟩ := there
    exact counted.blockSound larger known lead clear kept here (valid k b here)

theorem Counted.warnings_eq (counted : Counted before counter f f') {m m' : Module}
    (same : m'.metadata = m.metadata) (silent : ∀ inst ∈ before, inst.dbg = none) :
    functionWarnings m' f' = functionWarnings m f := by
  have blocks : f'.blocks.map (·.insts.filterMap (·.dbg)) =
      f.blocks.map (·.insts.filterMap (·.dbg)) := by
    apply List.ext_getElem (by simp [counted.blocks])
    intro k inside inside'
    have within : k < f.blocks.length := by simpa using inside'
    have ends := counted.ended f.blocks[k] (List.getElem_mem _)
    obtain ⟨last, known, whole⟩ := countedBlock_eq (if k = 0 then before else []) counter
      (f.values.length + 2 * k) ends
    obtain ⟨-, front, old⟩ := Block.terminator?_eq_some.mp known
    have lead : (if k = 0 then before else []).filterMap (·.dbg) = [] := by
      split
      · exact List.filterMap_eq_nil_iff.mpr silent
      · rfl
    simp [counted.blocks, whole, old, lead, increments]
  have nodes : (f'.blocks.flatMap (·.insts)).filterMap (·.dbg) =
      (f.blocks.flatMap (·.insts)).filterMap (·.dbg) := by
    rw [List.filterMap_flatMap, List.filterMap_flatMap, List.flatMap_def, List.flatMap_def, blocks]
  have name : f'.name = f.name := by rw [counted.frame]
  simp only [functionWarnings, nodes, name, Module.hasMetadata, same]

end

/-- The hook may be called first of all: the entry function does not begin with a phi. -/
def HookMayLead (s : Settings) (m : Module) : Prop :=
  ∀ entry f, m.functionNamed? s.entry = some entry → m.function? entry = some f → ¬ OpensWithPhi f

section
variable {s : Settings} {m m' : Module} {entry hook : FuncId} {counted : List Function}

theorem CountedModule.lead (parts : CountedModule s m m' entry hook counted) (k : Nat) :
    Lead m' (if k = entry.index then [hookCall hook] else []) := by
  obtain ⟨g, found, -, nullary⟩ := parts.callable
  split
  · exact .hook found nullary
  · exact .none

theorem CountedModule.extends (parts : CountedModule s m m' entry hook counted) :
    Extends m m' where
  globals := by
    intro id known
    obtain ⟨g, found⟩ := Option.isSome_iff_exists.mp known
    have inside := (List.getElem?_eq_some_iff.mp found).1
    rw [parts.whole, Module.global?, List.getElem?_append_left inside]
    exact known
  functions := by
    intro id g found
    obtain ⟨g', there, grown, -⟩ := parts.each _ _ found
    have inside := (List.getElem?_eq_some_iff.mp there).1
    refine ⟨g', ?_, by rw [grown.frame], by rw [grown.frame]⟩
    rw [parts.whole, Module.function?, List.getElem?_append_left inside, there]

theorem CountedModule.sound_iff (parts : CountedModule s m m' entry hook counted) {k : Nat}
    {f f' : Function} (here : m.functions[k]? = some f) (there : counted[k]? = some f')
    (valid : ∀ i b, f.blocks[i]? = some b → BlockSound m f b i) :
    (∀ i b, f'.blocks[i]? = some b → BlockSound m' f' b i) ↔
      (k = entry.index → ¬ OpensWithPhi f) ∧ ¬ TakesNewValue f := by
  obtain ⟨f'', there', grown, -⟩ := parts.each k f here
  obtain rfl : f' = f'' := Option.some.inj (there.symm.trans there')
  have sound := grown.sound_iff parts.extends (Option.isSome_of_eq_some parts.global?_counter)
    (parts.lead k) valid
  by_cases entered : k = entry.index
  · simpa [entered] using sound
  · simpa [entered] using sound

end

theorem count_isValid_iff {s : Settings} {m m' : Module} (built : m.Built)
    (valid : m.isValid = true) (ok : count s m = (.ok true, m')) :
    m'.isValid = true ↔ HookMayLead s m ∧ ∀ f ∈ m.functions, ¬ TakesNewValue f := by
  obtain ⟨entry, hook, counted, parts⟩ := count_parts built ok
  rw [Module.isValid_iff] at valid ⊢
  constructor
  · intro sound
    have all : ∀ k f, m.functions[k]? = some f →
        (k = entry.index → ¬ OpensWithPhi f) ∧ ¬ TakesNewValue f := by
      intro k f here
      obtain ⟨f', there, -⟩ := parts.each k f here
      exact (parts.sound_iff here there (valid f (List.mem_of_getElem? here))).mp
        (sound f' (parts.mem_functions there))
    refine ⟨?_, ?_⟩
    · intro entry' f named here
      obtain rfl : entry = entry' := Option.some.inj (parts.named.symm.trans named)
      exact (all entry.index f here).1 rfl
    · intro f mem
      obtain ⟨k, here⟩ := List.getElem?_of_mem mem
      exact (all k f here).2
  · rintro ⟨may_lead, kept⟩ f' mem
    rcases parts.function_cases mem with ⟨k, f, here, there, -⟩ | rfl
    · have old := List.mem_of_getElem? here
      refine (parts.sound_iff here there (valid f old)).mpr ⟨?_, kept f old⟩
      rintro rfl
      exact may_lead entry f parts.named here
    · have blocks : (Function.declare s.hook .nullary).blocks = [] := rfl
      simp [blocks]

private theorem count_warnings {s : Settings} {m m' : Module} (ok : count s m = (.ok changed, m')) :
    m'.warnings = m.warnings := by
  cases changed with
  | false => rw [count_unchanged ok]
  | true =>
    obtain ⟨entry, hook, m₁, counted, ready, rfl, size, each⟩ := count_result ok
    have metadata : m₁.metadata = m.metadata := by rw [ready.result]
    have old : counted.map (functionWarnings
        { m₁ with functions := counted ++ hookDeclaration m s.hook }) =
        m.functions.map (functionWarnings m) := by
      apply List.ext_getElem (by simp [size])
      intro k _ within
      simp only [List.length_map] at within
      obtain ⟨f', there, grown⟩ := each k _ (List.getElem?_eq_getElem within)
      have same : counted[k] = f' := by
        simpa [List.getElem?_eq_getElem (size ▸ within : k < counted.length)] using there
      simp only [List.getElem_map, same]
      refine grown.warnings_eq metadata ?_
      split <;> simp [hookCall]
    have new : (hookDeclaration m s.hook).flatMap (functionWarnings
        { m₁ with functions := counted ++ hookDeclaration m s.hook }) = [] := by
      refine List.flatMap_eq_nil_iff.mpr fun f mem => ?_
      rw [mem_hookDeclaration mem]
      rfl
    rw [Module.warnings, Module.warnings, List.flatMap_append, new, List.append_nil,
      List.flatMap_def, old, List.flatMap_def]

/-- The pass as the tool runs it: a module that it changed is verified, and blamed on it. -/
theorem instrument_eq {s : Settings} {m m' : Module} (ok : count s m = (.ok changed, m')) :
    instrument s m = (if changed && !m'.isValid then
      .error (.refused (.verificationFailed "count-bb" m'.defects)) else .ok changed, m') := by
  have run : (pass s).run m = (.ok changed, m') := ok
  rw [instrument, Pass.runAll, Edit.bind_of_ok run]
  cases changed with
  | false => rfl
  | true =>
    have judged := (pass s).verify_eq m'
    cases sound : m'.isValid with
    | false =>
      rw [sound] at judged
      exact Edit.bind_of_error judged
    | true =>
      rw [sound] at judged
      exact Edit.bind_of_ok judged

/-- A valid module that has been counted keeps its warnings. It is still valid, and passes, exactly
if it was not changed, or the entry function does not begin with a phi and no terminator takes the
number of a new value. -/
theorem instrument_passes_iff {s : Settings} {m m' : Module} (built : m.Built)
    (valid : m.isValid = true) (ok : count s m = (.ok changed, m')) :
    m'.warnings = m.warnings ∧
      (m'.isValid = true ↔
        (changed = true → HookMayLead s m ∧ ∀ f ∈ m.functions, ¬ TakesNewValue f)) ∧
      instrument s m = (if m'.isValid then .ok changed
        else .error (.refused (.verificationFailed "count-bb" m'.defects)), m') := by
  refine ⟨count_warnings ok, ?_, ?_⟩
  · cases changed with
    | false =>
      obtain rfl := count_unchanged ok
      simp [valid]
    | true => simpa using count_isValid_iff built valid ok
  · rw [instrument_eq ok]
    cases changed with
    | false =>
      obtain rfl := count_unchanged ok
      simp [valid]
    | true => cases m'.isValid <;> rfl

/-- A function that begins with a phi over its only edge, back from its end. -/
def looping (name : String) : Function :=
  { name, ret := .void
    blocks := [⟨"entry", [{ result := some ⟨0⟩, op := .phi (.int 32) [(.int 32 0, ⟨0⟩)] },
      { op := .br ⟨0⟩ }]⟩]
    values := [⟨"p", .int 32, .instruction⟩] }

private theorem looping_built (name : String) : (looping name).Built := by
  have start : Function.Steps { name, ret := .void } (Function.addBlock "entry"
      { name, ret := .void }).2 := .single (.addBlock _ "entry")
  have named : Function.Steps { name, ret := .void } { (looping name) with
      blocks := [⟨"entry", []⟩] } := start.tail (.addNamedValue rfl)
  exact ⟨name, .void, named.tail (.setBlock _ ⟨0⟩ ⟨"entry", _⟩)⟩

private theorem looping_module_built :
    Module.Built { name := "m", functions := [looping "main"] } :=
  .addFunction (.new "m") (looping_built "main")
    (Module.addFunction_eq_ok.mpr ⟨List.not_mem_nil, rfl, rfl⟩)

/-- It is valid, but its blocks cannot be counted. -/
theorem looping_fails : ∃ m', Module.Built { name := "m", functions := [looping "main"] } ∧
    Module.isValid { name := "m", functions := [looping "main"] } = true ∧
    instrument {} { name := "m", functions := [looping "main"] } =
      (.error (.refused (.verificationFailed "count-bb" [.misplacedPhi "main" "entry"])), m') :=
  ⟨_, looping_module_built, by decide +kernel, Edit.run_of_fst (by decide +kernel)⟩

theorem instrument_passes_iff_returning : ∃ m',
    Module.isValid { name := "m", functions := [returning "main"] } = true ∧
    count {} { name := "m", functions := [returning "main"] } = (.ok true, m') ∧
    m'.isValid = true ∧ HookMayLead {} { name := "m", functions := [returning "main"] } := by
  have run : ∃ m', count {} { name := "m", functions := [returning "main"] } = (.ok true, m') ∧
      m'.isValid = true := ⟨_, Edit.run_of_fst (by decide +kernel), by decide +kernel⟩
  obtain ⟨m', ok, sound⟩ := run
  obtain ⟨-, exactly, -⟩ := instrument_passes_iff (returning_module_built "main") rfl ok
  exact ⟨m', rfl, ok, sound, (exactly.mp sound rfl).1⟩

end BlockTally.Tally
