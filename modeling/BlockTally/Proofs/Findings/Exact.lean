import BlockTally.Proofs.Findings.Counted
import Mathlib.Algebra.BigOperators.Group.Finset.Basic
import Mathlib.Data.Set.Card

/-! The totals of a report in detail are the numbers of what is in the module, in whatever order and
in whatever portions its findings are recorded. Main statement: `Totals.fed_exact`. -/
namespace BlockTally

/-- A call that hands findings to the totals. -/
inductive Totals.Feed where
  | record (x : Finding)
  | extend (xs : List Finding)

namespace Totals

def Feed.findings : Feed → List Finding
  | .record x => [x]
  | .extend xs => xs

def Feed.apply (t : Totals) : Feed → Totals
  | .record x => t.record x
  | .extend xs => t.extend xs

/-- The totals behind a run of calls. -/
def fed (feeds : List Feed) : Totals := feeds.foldl Feed.apply {}

/-- It makes no difference how the findings are split. -/
theorem fed_eq (feeds : List Feed) : fed feeds = ofFindings (feeds.flatMap Feed.findings) := by
  rw [fed, ofFindings, extend, List.foldl_flatMap]
  congr 1
  funext t feed
  cases feed <;> rfl

end Totals

/-! What is in a module, told from its code alone. -/

namespace Module

def instructions (m : Module) : List Instruction := m.functions.flatMap (·.instructions)

/-- The number of instructions that begin with the word. -/
def opcodeCount (m : Module) (word : String) : Nat := m.instructions.countP (·.op.opcode = word)

/-- The function of the module that an instruction calls. -/
def callee? (m : Module) (inst : Instruction) : Option Function :=
  inst.op.callSite?.bind fun site => site.callee.function?.bind m.function?

/-- The number of instructions that call the function of this name. -/
def callCount (m : Module) (name : String) : Nat :=
  m.instructions.countP fun inst => (m.callee? inst).any (·.name = name)

/-- The names of the functions that are called, in the order of the code. -/
def called (m : Module) : List String :=
  m.instructions.filterMap fun inst => (m.callee? inst).map (·.name)

private theorem count_called (m : Module) (name : String) :
    m.called.count name = m.callCount name := by
  rw [called, List.count_filterMap]
  refine List.countP_congr fun inst _ => ?_
  cases m.callee? inst <;> simp

private theorem length_called (m : Module) :
    m.called.length = m.instructions.countP (m.callee? · |>.isSome) := by
  simp only [called, List.length_filterMap_eq_countP, Option.isSome_map]

private theorem called_mem_names {m : Module} {name : String} (mem : name ∈ m.called) :
    name ∈ m.functions.map (·.name) := by
  obtain ⟨inst, -, called⟩ := List.mem_filterMap.mp mem
  obtain ⟨g, callee, rfl⟩ := Option.map_eq_some_iff.mp called
  obtain ⟨site, -, here⟩ := Option.bind_eq_some_iff.mp callee
  obtain ⟨id, -, found⟩ := Option.bind_eq_some_iff.mp here
  exact List.mem_map_of_mem (List.mem_of_getElem? found)

end Module

/-- The totals are the numbers of what is in the module, which leaves no choice for any of them. -/
structure Totals.Exact (t : Totals) (m : Module) : Prop where
  functions : t.functions = m.functions.length
  blocks : t.blocks = m.blockCount
  allocas : t.allocas = m.opcodeCount "alloca"
  stores : t.stores = m.opcodeCount "store"
  loads : t.loads = m.opcodeCount "load"
  compares : t.compares = m.opcodeCount "icmp"
  directCalls : t.directCalls = m.instructions.countP (m.callee? · |>.isSome)
  calls : t.directCalls + t.indirectCalls = m.opcodeCount "call" + m.opcodeCount "invoke"
  callsTo : ∀ name, t.callsTo name = m.callCount name
  shares : ((m.functions.map (·.name)).map t.callsTo).sum = t.directCalls
  distinctCallees : t.distinctCallees = {name | 0 < t.callsTo name}.encard

namespace Finding

def callee? : Finding → Option String
  | .callee name => some name
  | _ => none

end Finding

namespace Totals

/-! The tally of callees. -/

section
variable {name other : String} {callees : List (String × Nat)}

private theorem lookup_tally : ((tally name callees).lookup other).getD 0 =
    (callees.lookup other).getD 0 + if name = other then 1 else 0 := by
  induction callees with
  | nil =>
    by_cases same : name = other
    · simp [tally, same]
    · simp [tally, List.lookup_cons, beq_false_of_ne (Ne.symm same), same]
  | cons entry rest ih =>
    obtain ⟨callee, calls⟩ := entry
    by_cases here : callee = name
    · subst here
      by_cases same : callee = other
      · simp [tally, same]
      · simp [tally, same, List.lookup_cons, beq_false_of_ne (Ne.symm same)]
    · by_cases same : other = callee
      · subst same
        simp [tally, here, Ne.symm here]
      · simp [tally, here, List.lookup_cons, beq_false_of_ne same, ih]

private theorem mem_tally : other ∈ (tally name callees).map (·.1) ↔
    other = name ∨ other ∈ callees.map (·.1) := by
  induction callees with
  | nil => simp [tally]
  | cons entry rest ih =>
    by_cases here : entry.1 = name
    · simp [tally, here]
    · rw [tally, if_neg here, List.map_cons, List.mem_cons, ih, List.map_cons, List.mem_cons]
      exact or_left_comm

private theorem nodup_tally (distinct : (callees.map (·.1)).Nodup) :
    ((tally name callees).map (·.1)).Nodup := by
  induction callees with
  | nil => simp [tally]
  | cons entry rest ih =>
    obtain ⟨apart, distinct⟩ := List.nodup_cons.mp distinct
    by_cases here : entry.1 = name
    · rw [tally, if_pos here, List.map_cons, List.nodup_cons]
      exact ⟨here ▸ apart, distinct⟩
    · rw [tally, if_neg here, List.map_cons, List.nodup_cons, mem_tally, not_or]
      exact ⟨⟨here, apart⟩, ih distinct⟩

end

/-- The totals tell how often each name is among those that were called. -/
structure Tallies (t : Totals) (called : List String) : Prop where
  callsTo : ∀ name, t.callsTo name = called.count name
  distinct : (t.callees.map (·.1)).Nodup
  mem : ∀ name, name ∈ t.callees.map (·.1) ↔ name ∈ called

theorem Tallies.record {t : Totals} {called : List String} (tallies : t.Tallies called)
    (x : Finding) : (t.record x).Tallies (called ++ x.callee?.toList) := by
  cases x with
  | callee name =>
    refine ⟨?_, nodup_tally tallies.distinct, ?_⟩
    · intro other
      have before := tallies.callsTo other
      rw [Totals.callsTo] at before
      simp only [Totals.callsTo, Totals.record, lookup_tally, before, Finding.callee?,
        Option.toList_some, List.count_append, List.count_singleton, beq_iff_eq]
    · intro other
      simp only [Totals.record, mem_tally, tallies.mem, Finding.callee?, Option.toList_some,
        List.mem_append, List.mem_singleton]
      exact or_comm
  | _ =>
    rw [Finding.callee?, Option.toList_none, List.append_nil]
    · exact ⟨tallies.callsTo, tallies.distinct, tallies.mem⟩
    · rintro name ⟨⟩

private theorem tallies_ofFindings (xs : List Finding) :
    (ofFindings xs).Tallies (xs.filterMap Finding.callee?) := by
  suffices from_any : ∀ (t : Totals) (called : List String), t.Tallies called →
      (xs.foldl record t).Tallies (called ++ xs.filterMap Finding.callee?) by
    exact from_any {} [] ⟨fun _ => rfl, .nil, fun _ => Iff.rfl⟩
  induction xs with
  | nil =>
    intro t called tallies
    simpa using tallies
  | cons x xs ih =>
    intro t called tallies
    have rest := ih _ _ (tallies.record x)
    rw [List.append_assoc] at rest
    have joined : x.callee?.toList ++ xs.filterMap Finding.callee? =
        (x :: xs).filterMap Finding.callee? := by
      cases here : x.callee? <;> simp [here]
    rwa [joined] at rest

theorem Tallies.perm {t : Totals} {called called' : List String} (tallies : t.Tallies called)
    (same : called.Perm called') : t.Tallies called' where
  callsTo name := (tallies.callsTo name).trans (same.count_eq name)
  distinct := tallies.distinct
  mem name := (tallies.mem name).trans same.mem_iff

theorem Tallies.distinctCallees {t : Totals} {called : List String} (tallies : t.Tallies called) :
    t.distinctCallees = {name | 0 < t.callsTo name}.encard := by
  have names : {name | 0 < t.callsTo name} = ((t.callees.map (·.1)).toFinset : Set String) := by
    ext name
    rw [Set.mem_ofPred_eq, tallies.callsTo, List.count_pos_iff, ← tallies.mem, Finset.mem_coe,
      List.mem_toFinset]
  rw [names, Set.encard_coe_eq_coe_finsetCard, List.toFinset_card_of_nodup tallies.distinct,
    List.length_map, Totals.distinctCallees]

theorem Tallies.shares {t : Totals} {called names : List String} (tallies : t.Tallies called)
    (distinct : names.Nodup) (known : ∀ name ∈ called, name ∈ names) :
    (names.map t.callsTo).sum = called.length := by
  have counts : t.callsTo = fun name => (called : Multiset String).count name := by
    funext name
    rw [tallies.callsTo, Multiset.coe_count]
  rw [counts, ← List.sum_toFinset _ distinct, Multiset.sum_count_eq_card, Multiset.coe_card]
  intro name mem
  exact List.mem_toFinset.mpr (known name (Multiset.mem_coe.mp mem))

end Totals

/-! The findings of a module by their kinds. -/

/-- The kind of finding that an operation is. -/
def Operation.found? (m : Module) : Operation → Option Finding.Kind
  | .alloca .. => some .alloca
  | .store .. => some .store
  | .load .. => some .load
  | .icmp .. => some .compare
  | .call site | .invoke site .. =>
    some (if (site.callee.function?.bind m.function?).isSome then .callee else .indirectCall)
  | _ => none

section
variable {m : Module} {f : Function} {kind : Finding.Kind}

theorem Finding.ofCall_kind (inst : Instruction) (site : CallSite) : (ofCall m f inst site).kind =
    if (site.callee.function?.bind m.function?).isSome then .callee else .indirectCall := by
  unfold ofCall
  cases site.callee.function?.bind m.function? <;> rfl

theorem Finding.ofInstruction?_kind (inst : Instruction) :
    (ofInstruction? m true f inst).map Finding.kind = inst.op.found? m := by
  unfold ofInstruction? Operation.found?
  cases inst.op with
  | call | invoke => exact congrArg some (ofCall_kind _ _)
  | _ => rfl

theorem Finding.ofInstruction?_callee (inst : Instruction) :
    (ofInstruction? m true f inst).bind Finding.callee? = (m.callee? inst).map (·.name) := by
  have call : ∀ site, (ofCall m f inst site).callee? =
      (site.callee.function?.bind m.function?).map (·.name) := by
    intro site
    unfold ofCall
    cases site.callee.function?.bind m.function? <;> rfl
  unfold ofInstruction? Module.callee?
  cases inst.op with
  | call | invoke => exact call _
  | _ => rfl

private theorem number_filterMap (insts : List Instruction) :
    Finding.number kind (insts.filterMap (Finding.ofInstruction? m true f)) =
      insts.countP (·.op.found? m == some kind) := by
  rw [Finding.number, List.map_filterMap]
  simp only [Finding.ofInstruction?_kind, List.count_filterMap]

private theorem number_blocks (bs : List Block) :
    Finding.number kind (bs.flatMap (m.blockFindings true f)) =
      bs.length * [Finding.Kind.block].count kind +
        (bs.flatMap (·.insts)).countP (·.op.found? m == some kind) := by
  induction bs with
  | nil => simp
  | cons b bs ih =>
    have marker : Finding.number kind [Finding.block b.name] = [Finding.Kind.block].count kind := rfl
    rw [List.flatMap_cons, Finding.number_append, ih, Module.blockFindings, if_pos rfl,
      Finding.number_append, number_filterMap, marker, List.flatMap_cons, List.countP_append,
      List.length_cons, Nat.add_mul]
    omega

private theorem number_findings (fs : List Function) :
    Finding.number kind (fs.flatMap (m.functionFindings true)) =
      fs.length * [Finding.Kind.function].count kind +
        (fs.flatMap (·.blocks)).length * [Finding.Kind.block].count kind +
        (fs.flatMap (·.instructions)).countP (·.op.found? m == some kind) := by
  induction fs with
  | nil => simp
  | cons f fs ih =>
    have marker : ∀ xs, Finding.number kind (.function f.name :: xs) =
        [Finding.Kind.function].count kind + Finding.number kind xs := fun xs =>
      Finding.number_append kind [.function f.name] xs
    rw [List.flatMap_cons, Finding.number_append, ih, Module.functionFindings, marker,
      number_blocks, List.flatMap_cons, List.flatMap_cons, List.countP_append, List.length_append,
      List.length_cons, Nat.add_mul, Nat.add_mul, Function.instructions]
    omega

private theorem filterMap_callee : (m.findings true).filterMap Finding.callee? = m.called := by
  have marker : ∀ name, (Finding.function name).callee? = none := fun _ => rfl
  have block : ∀ name, (Finding.block name).callee? = none := fun _ => rfl
  simp [Module.findings, Module.functionFindings, Module.blockFindings, Module.called,
    Module.instructions, Function.instructions, List.filterMap_flatMap, List.filterMap_filterMap,
    marker, block, Finding.ofInstruction?_callee]

/-- The word that the instructions of a kind begin with; calls have two. -/
def Finding.Kind.word? : Finding.Kind → Option String
  | .alloca => "alloca"
  | .store => "store"
  | .load => "load"
  | .compare => "icmp"
  | _ => none

theorem Operation.found?_iff {word : String} (begins : kind.word? = some word) (op : Operation) :
    op.found? m = some kind ↔ op.opcode = word := by
  cases kind <;> cases begins
  all_goals
    cases op with
    | arith op | convert op =>
      cases op <;> simp [found?, opcode, Arith.mnemonic, Conversion.mnemonic]
    | call | invoke => simp only [found?, opcode]; split <;> simp
    | _ => simp [found?, opcode]

private theorem countP_found {word : String} (begins : kind.word? = some word) :
    m.instructions.countP (·.op.found? m == some kind) = m.opcodeCount word := by
  refine List.countP_congr fun inst _ => ?_
  rw [beq_iff_eq, decide_eq_true_iff]
  exact Operation.found?_iff begins inst.op

/-- No instruction is found as a function or as a block. -/
theorem countP_marker (marker : kind = .function ∨ kind = .block) (insts : List Instruction) :
    insts.countP (·.op.found? m == some kind) = 0 := by
  rw [List.countP_eq_zero]
  intro inst _
  rcases marker with rfl | rfl
  all_goals
    cases op : inst.op with
    | call | invoke => simp only [Operation.found?]; split <;> simp
    | _ => simp [Operation.found?]

private theorem countP_calls (insts : List Instruction) :
    insts.countP (·.op.found? m == some .callee) +
      insts.countP (·.op.found? m == some .indirectCall) =
        insts.countP (·.op.opcode = "call") + insts.countP (·.op.opcode = "invoke") := by
  have each : ∀ op : Operation, (if op.found? m == some .callee then 1 else 0) +
      (if op.found? m == some .indirectCall then 1 else 0) =
        (if op.opcode = "call" then 1 else 0) + if op.opcode = "invoke" then 1 else 0 := by
    intro op
    cases op with
    | arith op | convert op => cases op <;> rfl
    | call | invoke => simp only [Operation.found?, Operation.opcode]; split <;> rfl
    | _ => rfl
  induction insts with
  | nil => rfl
  | cons inst insts ih =>
    have here := each inst.op
    simp only [List.countP_cons, decide_eq_true_iff]
    omega

private theorem number_callee (xs : List Finding) :
    Finding.number .callee xs = (xs.filterMap Finding.callee?).length := by
  induction xs with
  | nil => rfl
  | cons x xs ih =>
    rw [Finding.number_cons, ih]
    cases x <;> rfl

end

namespace Totals

variable {m : Module} {xs : List Finding}

private theorem of_perm (all : xs.Perm (m.findings true)) (kind : Finding.Kind) :
    (ofFindings xs).of kind = m.functions.length * [Finding.Kind.function].count kind +
      m.blockCount * [Finding.Kind.block].count kind +
      m.instructions.countP (·.op.found? m == some kind) := by
  rw [ofFindings_of, Finding.number, (all.map Finding.kind).count_eq]
  exact number_findings m.functions

private theorem of_word (all : xs.Perm (m.findings true)) (kind : Finding.Kind) {word : String}
    (begins : kind.word? = some word) : (ofFindings xs).of kind = m.opcodeCount word := by
  have markers : [Finding.Kind.function].count kind = 0 ∧ [Finding.Kind.block].count kind = 0 := by
    cases kind <;> cases begins <;> exact ⟨rfl, rfl⟩
  rw [of_perm all, markers.1, markers.2, countP_found begins]
  omega

private theorem directCalls_perm (all : xs.Perm (m.findings true)) :
    (ofFindings xs).directCalls = m.called.length := by
  rw [← filterMap_callee, ← (all.filterMap _).length_eq, ← number_callee]
  exact ofFindings_of xs .callee

private theorem calls_perm (all : xs.Perm (m.findings true)) :
    (ofFindings xs).directCalls + (ofFindings xs).indirectCalls =
      m.opcodeCount "call" + m.opcodeCount "invoke" := by
  have direct : (ofFindings xs).directCalls = _ := of_perm all .callee
  have indirect : (ofFindings xs).indirectCalls = _ := of_perm all .indirectCall
  have both := @countP_calls m m.instructions
  simp only [List.count_singleton, reduceCtorEq, beq_iff_eq, if_false, Nat.mul_zero,
    Nat.zero_add] at direct indirect
  rw [direct, indirect, both]
  rfl

private theorem tallies_perm (all : xs.Perm (m.findings true)) :
    (ofFindings xs).Tallies m.called := by
  rw [← filterMap_callee]
  exact (tallies_ofFindings xs).perm (all.filterMap _)

/-- All findings of a report in detail, each once. -/
theorem fed_exact {feeds : List Feed} (distinct : (m.functions.map (·.name)).Nodup)
    (all : (feeds.flatMap Feed.findings).Perm (m.findings true)) : (fed feeds).Exact m := by
  rw [fed_eq]
  have tallies := tallies_perm all
  have direct := directCalls_perm all
  refine
    { functions := ?_, blocks := ?_
      allocas := of_word all .alloca rfl
      stores := of_word all .store rfl
      loads := of_word all .load rfl
      compares := of_word all .compare rfl
      directCalls := direct.trans m.length_called
      calls := calls_perm all
      callsTo := fun name => (tallies.callsTo name).trans (m.count_called name)
      -- The calls of a name that two functions had would be counted with each of them.
      shares := (tallies.shares distinct fun name => Module.called_mem_names).trans direct.symm
      distinctCallees := tallies.distinctCallees }
  · simpa [countP_marker, of] using of_perm all .function
  · simpa [countP_marker, of] using of_perm all .block

/-- A function that calls another one twice, and once what is stored in a slot. -/
def calling : Module where
  name := "m"
  functions := [{ name := "f", ret := .void },
    { name := "main", ret := .void
      blocks := [⟨"", [{ result := some ⟨0⟩, op := .alloca .ptr none },
        { op := .store .ptr (.function ⟨0⟩) (.value ⟨0⟩) none },
        { result := some ⟨1⟩, op := .load .ptr (.value ⟨0⟩) none },
        { op := .call ⟨.void, .function ⟨0⟩, []⟩ }, { op := .call ⟨.void, .value ⟨1⟩, []⟩ },
        { op := .call ⟨.void, .function ⟨0⟩, []⟩ }, { op := .ret .void none }]⟩] }]

/-- The findings from the fourth on, all at once, and then the first three one by one, last first. -/
def shuffled (xs : List Finding) : List Feed :=
  .extend (xs.drop 3) :: (xs.take 3).reverse.map .record

private theorem shuffled_perm (xs : List Finding) :
    ((shuffled xs).flatMap Feed.findings).Perm xs := by
  have single : ∀ ys : List Finding, (ys.map Feed.record).flatMap Feed.findings = ys := by
    intro ys
    simp [List.flatMap_map, Feed.findings]
  have swapped : (xs.drop 3 ++ xs.take 3).Perm xs :=
    List.perm_append_comm.trans (.of_eq (List.take_append_drop 3 xs))
  rw [shuffled, List.flatMap_cons, single]
  exact ((List.reverse_perm _).append_left _).trans swapped

theorem fed_exact_calling : (calling.functions.map (·.name)).Nodup ∧
    ((shuffled (calling.findings true)).flatMap Feed.findings).Perm (calling.findings true) ∧
    (fed (shuffled (calling.findings true))).callsTo "f" = 2 ∧
    (fed (shuffled (calling.findings true))).directCalls = 2 ∧
    (fed (shuffled (calling.findings true))).indirectCalls = 1 ∧
    (fed (shuffled (calling.findings true))).stores = 1 := by
  have distinct : (calling.functions.map (·.name)).Nodup := by decide
  have all := shuffled_perm (calling.findings true)
  have told := fed_exact distinct all
  have direct : (fed (shuffled (calling.findings true))).directCalls = 2 :=
    told.directCalls.trans rfl
  have calls : _ = 3 := told.calls.trans rfl
  exact ⟨distinct, all, (told.callsTo "f").trans rfl, direct, by omega, told.stores.trans rfl⟩

end Totals

end BlockTally
