import BlockTally.Findings.Totals
import BlockTally.Proofs.Listing.Enlarged
import BlockTally.Proofs.Tally.Verified

/-! What a report says of a counted module: each finding of the module before, the call of the hook
right behind the entry function, and the hook if it is new; of the increments it tells only in
detail. Main statement: `count_report`. -/
namespace BlockTally
open Listing Tally

/-- A finding without its names. -/
inductive Finding.Kind where
  | function | block | alloca | store | load | compare | callee | indirectCall
  deriving DecidableEq

def Finding.kind : Finding → Kind
  | .function _ => .function
  | .block _ => .block
  | .alloca _ => .alloca
  | .store _ => .store
  | .load _ => .load
  | .compare _ => .compare
  | .callee _ => .callee
  | .indirectCall _ => .indirectCall

def Totals.of (t : Totals) : Finding.Kind → Nat
  | .function => t.functions
  | .block => t.blocks
  | .alloca => t.allocas
  | .store => t.stores
  | .load => t.loads
  | .compare => t.compares
  | .callee => t.directCalls
  | .indirectCall => t.indirectCalls

namespace Finding

/-- How many findings are of a kind. -/
def number (kind : Kind) (xs : List Finding) : Nat := (xs.map Finding.kind).count kind

variable (kind : Kind)

@[simp] theorem number_nil : number kind [] = 0 := by
  simp [number]

@[simp] theorem number_cons (x : Finding) (xs : List Finding) :
    number kind (x :: xs) = number kind xs + if x.kind = kind then 1 else 0 := by
  simp [number, List.count_cons]

@[simp] theorem number_append (xs ys : List Finding) :
    number kind (xs ++ ys) = number kind xs + number kind ys := by
  simp [number]

private theorem number_if (absent : Prop) [Decidable absent] (x : Finding) :
    number kind (if absent then [] else [x]) =
      if absent then 0 else if x.kind = kind then 1 else 0 := by
  split <;> simp

end Finding

theorem Totals.record_of (t : Totals) (x : Finding) (kind : Finding.Kind) :
    (t.record x).of kind = t.of kind + if x.kind = kind then 1 else 0 := by
  cases x <;> cases kind <;> simp [record, of, Finding.kind]

/-- The totals are the numbers of findings of each kind. -/
theorem Totals.ofFindings_of (xs : List Finding) (kind : Finding.Kind) :
    (ofFindings xs).of kind = Finding.number kind xs := by
  suffices from_any : ∀ t : Totals,
      (xs.foldl record t).of kind = t.of kind + Finding.number kind xs by
    have empty : ({} : Totals).of kind = 0 := by cases kind <;> rfl
    rw [ofFindings, extend, from_any, empty, Nat.zero_add]
  induction xs with
  | nil => simp
  | cons x xs ih =>
    intro t
    rw [List.foldl_cons, ih, record_of, Finding.number_cons]
    omega

/-- The lines of a report; there are none where one of them has no text. -/
def Module.reportLines (m : Module) (detailed : Bool) : Option (List String) :=
  (m.findings detailed).mapM (·.line m)

/-- The totals of a report in detail. -/
def Module.totals (m : Module) : Totals := Totals.ofFindings (m.findings true)

/-- Whether a report shows the text of the instruction: of a stack slot, and of a call unless it is
the call of a function. -/
def Operation.isShown : Operation → Bool
  | .alloca .. => true
  | .call site | .invoke site .. => site.callee.function?.isNone
  | _ => false

/-- The instructions whose text a report shows have results among the first `count` values. -/
def Function.ShowsWithin (f : Function) (count : Nat) : Prop :=
  ∀ inst ∈ f.instructions, inst.op.isShown = true → ∀ id, inst.result = some id → id.index < count

/-! Findings in larger tables. -/

/-- A finding as it is found in larger tables: of its kind, and on the same line if it has one. -/
structure Finding.Alike (m m' : Module) (x x' : Finding) : Prop where
  kind : x'.kind = x.kind
  line : Kept (x.line m) (x'.line m')

section
variable {m m' : Module} {f f' : Function}

private theorem ofInstruction?_alike (grown : Enlarged m f m' f') (detailed : Bool)
    {inst : Instruction} (known : ∀ o ∈ inst.op.operands, o.In m f) :
    Option.Rel (Finding.Alike m m') (Finding.ofInstruction? m detailed f inst)
      (Finding.ofInstruction? m' detailed f' inst) := by
  have shown : ∀ label, Kept (Finding.line.shown? m label ⟨f, inst⟩)
      (Finding.line.shown? m' label ⟨f', inst⟩) := fun label =>
    (instructionText_kept grown inst).map _
  have call : ∀ site : CallSite, site.callee.In m f →
      Finding.Alike m m' (.ofCall m f inst site) (.ofCall m' f' inst site) := by
    intro site inside
    unfold Finding.ofCall
    cases callee : site.callee with
    | function id =>
      rw [callee] at inside
      obtain ⟨g, here⟩ := Option.isSome_iff_exists.mp inside
      obtain ⟨g', there, name, -⟩ := grown.functions id g here
      simp only [Operand.function?, Option.bind_some, here, there]
      exact ⟨rfl, by rw [Finding.line, Finding.line, name]; exact .refl _⟩
    | _ => exact ⟨rfl, shown _⟩
  unfold Finding.ofInstruction?
  cases op : inst.op with
  | alloca => exact .some ⟨rfl, shown _⟩
  | store | load | icmp =>
    cases detailed with
    | false => exact .none
    | true => exact .some ⟨rfl, shown _⟩
  | call site | invoke site =>
    rw [op] at known
    exact .some (call site (known _ List.mem_cons_self))
  | _ => exact .none

private theorem filterMap_alike (grown : Enlarged m f m' f') (detailed : Bool)
    {insts : List Instruction} (known : ∀ inst ∈ insts, ∀ o ∈ inst.op.operands, o.In m f) :
    List.Forall₂ (Finding.Alike m m') (insts.filterMap (Finding.ofInstruction? m detailed f))
      (insts.filterMap (Finding.ofInstruction? m' detailed f')) := by
  have same : List.Forall₂ (fun inst inst' => inst = inst' ∧ ∀ o ∈ inst.op.operands, o.In m f)
      insts insts := List.forall₂_same.mpr fun inst mem => ⟨rfl, known inst mem⟩
  refine List.rel_filterMap ?_ same
  rintro inst _ ⟨rfl, inside⟩
  exact ofInstruction?_alike grown detailed inside

private theorem number_alike {xs xs' : List Finding}
    (alike : List.Forall₂ (Finding.Alike m m') xs xs') (kind : Finding.Kind) :
    Finding.number kind xs' = Finding.number kind xs := by
  induction alike with
  | nil => rfl
  | cons first _ ih => rw [Finding.number_cons, Finding.number_cons, first.kind, ih]

private theorem mapM_line_alike {xs xs' : List Finding}
    (alike : List.Forall₂ (Finding.Alike m m') xs xs') :
    Kept (xs.mapM (·.line m)) (xs'.mapM (·.line m')) := by
  induction alike with
  | nil => exact .refl _
  | cons first _ ih =>
    simp only [List.mapM_cons]
    exact first.line.bind fun _ => ih.bind fun _ => .refl _

/-- An instruction has no line where its text is shown but its result is not in the table. -/
theorem ofInstruction?_line (known : ∀ o ∈ inst.op.operands, o.In m f)
    (text : (operationText m f inst.op).isSome) :
    (∀ x ∈ Finding.ofInstruction? m false f inst, (x.line m).isSome) ↔
      (inst.op.isShown = true → ∀ id, inst.result = some id → id.index < f.values.length) := by
  have shown : ∀ label, (Finding.line.shown? m label ⟨f, inst⟩).isSome ↔
      ∀ id, inst.result = some id → id.index < f.values.length := by
    intro label
    simp [Finding.line.shown?, instructionText_isSome, text, Function.value?_isSome]
  have call : ∀ site : CallSite, site.callee.In m f →
      (((Finding.ofCall m f inst site).line m).isSome ↔ (site.callee.function?.isNone = true →
        ∀ id, inst.result = some id → id.index < f.values.length)) := by
    intro site inside
    unfold Finding.ofCall
    cases callee : site.callee with
    | function id =>
      rw [callee] at inside
      obtain ⟨g, here⟩ := Option.isSome_iff_exists.mp inside
      simp [Operand.function?, here, Finding.line]
    | _ => simpa [Operand.function?, Finding.line] using shown _
  unfold Finding.ofInstruction?
  cases op : inst.op with
  | alloca => simpa [Operation.isShown, Finding.line] using shown _
  | call site | invoke site =>
    rw [op] at known
    simpa [Operation.isShown] using call site (known _ List.mem_cons_self)
  | _ => simp [Operation.isShown]

private theorem filterMap_line {insts : List Instruction}
    (known : ∀ inst ∈ insts, ∀ o ∈ inst.op.operands, o.In m f)
    (texts : ∀ inst ∈ insts, (operationText m f inst.op).isSome) :
    (∀ x ∈ insts.filterMap (Finding.ofInstruction? m false f), (x.line m).isSome) ↔
      ∀ inst ∈ insts, inst.op.isShown = true → ∀ id, inst.result = some id →
        id.index < f.values.length := by
  rw [← forall₂_congr fun inst mem => ofInstruction?_line (known inst mem) (texts inst mem)]
  simp only [List.mem_filterMap]
  constructor
  · intro lines inst mem x found
    exact lines x ⟨inst, mem, found⟩
  · rintro lines x ⟨inst, mem, found⟩
    exact lines inst mem x found

end

namespace Tally

/-! Findings in a counted function. -/

private theorem flatMap_mapIdx {α β γ : Type} {h : β → List γ} {h' : α → List γ} :
    ∀ {l : List α} {g : Nat → α → β}, (∀ k, ∀ a ∈ l, h (g k a) = h' a) →
      (l.mapIdx g).flatMap h = l.flatMap h'
  | [], _, _ => rfl
  | a :: l, g, same => by
    rw [List.mapIdx_cons, List.flatMap_cons, List.flatMap_cons, same 0 a List.mem_cons_self,
      flatMap_mapIdx fun k a mem => same (k + 1) a (List.mem_cons_of_mem _ mem)]

private theorem number_flatMap_mapIdx {α β : Type} {kind : Finding.Kind} {h : β → List Finding}
    {h' : α → List Finding} {more : Nat} : ∀ {l : List α} {g : Nat → α → β},
      (∀ k, ∀ a ∈ l, Finding.number kind (h (g k a)) = Finding.number kind (h' a) + more) →
      Finding.number kind ((l.mapIdx g).flatMap h) =
        Finding.number kind (l.flatMap h') + l.length * more
  | [], _, _ => by simp
  | a :: l, g, each => by
    have rest := number_flatMap_mapIdx fun k a mem => each (k + 1) a (List.mem_cons_of_mem _ mem)
    rw [List.mapIdx_cons, List.flatMap_cons, List.flatMap_cons, Finding.number_append,
      Finding.number_append, each 0 a List.mem_cons_self, rest, List.length_cons, Nat.add_mul]
    omega

section
variable {m m' : Module} {f f' : Function} {before : List Instruction} {counter : GlobalId}

private theorem countedBlock_filterMap {β : Type} (before : List Instruction) (counter : GlobalId)
    (first : Nat) (g : Instruction → Option β) {b : Block} (ends : b.terminator?.isSome) :
    ∃ front last, b.insts = front ++ [last] ∧
      (countedBlock before counter first b).insts.filterMap g =
        before.filterMap g ++ front.filterMap g ++ (increments counter first).filterMap g ++
          [last].filterMap g := by
  obtain ⟨last, ends⟩ := Option.isSome_iff_exists.mp ends
  obtain ⟨-, front, whole⟩ := Block.terminator?_eq_some.mp ends
  exact ⟨front, last, whole, by simp [countedBlock, whole]⟩

/-- Without detail only what stands before the first block is new. -/
theorem Counted.bodyFindings (counted : Counted before counter f f') (m' : Module) :
    f'.blocks.flatMap (m'.blockFindings false f') =
      (if f.isDeclaration then [] else before.filterMap (Finding.ofInstruction? m' false f')) ++
        f.instructions.filterMap (Finding.ofInstruction? m' false f') := by
  have block : ∀ lead first b, b ∈ f.blocks →
      m'.blockFindings false f' (countedBlock lead counter first b) =
        lead.filterMap (Finding.ofInstruction? m' false f') ++
          b.insts.filterMap (Finding.ofInstruction? m' false f') := by
    intro lead first b mem
    obtain ⟨front, last, whole, found⟩ := countedBlock_filterMap lead counter first
      (Finding.ofInstruction? m' false f') (counted.ended b mem)
    have quiet : (increments counter first).filterMap (Finding.ofInstruction? m' false f') = [] :=
      rfl
    rw [Module.blockFindings, found, quiet, whole]
    simp
  rw [counted.blocks, Function.isDeclaration, Function.instructions]
  cases blocks : f.blocks with
  | nil => rfl
  | cons b bs =>
    rw [blocks] at block
    have others : (bs.mapIdx fun k => countedBlock (if k + 1 = 0 then before else []) counter
        (f.values.length + 2 * (k + 1))).flatMap (m'.blockFindings false f') =
        bs.flatMap fun b => b.insts.filterMap (Finding.ofInstruction? m' false f') :=
      flatMap_mapIdx fun k b mem => by simpa using block [] _ b (List.mem_cons_of_mem _ mem)
    rw [List.mapIdx_cons, List.flatMap_cons, others, if_pos rfl, block _ _ b List.mem_cons_self,
      List.flatMap_cons, List.filterMap_append, List.filterMap_flatMap]
    simp

/-- In detail each block loads and stores once more. -/
theorem Counted.bodyNumber (counted : Counted before counter f f') (grown : Enlarged m f m' f')
    (known : ∀ inst ∈ f.instructions, ∀ o ∈ inst.op.operands, o.In m f) (kind : Finding.Kind) :
    Finding.number kind (f'.blocks.flatMap (m'.blockFindings true f')) =
      Finding.number kind (f.blocks.flatMap (m.blockFindings true f)) +
        f.blocks.length * [Finding.Kind.load, .store].count kind +
        if f.isDeclaration then 0 else
          Finding.number kind (before.filterMap (Finding.ofInstruction? m' true f')) := by
  have block : ∀ lead first b, b ∈ f.blocks →
      Finding.number kind (m'.blockFindings true f' (countedBlock lead counter first b)) =
        Finding.number kind (m.blockFindings true f b) +
        ([Finding.Kind.load, .store].count kind +
        Finding.number kind (lead.filterMap (Finding.ofInstruction? m' true f'))) := by
    intro lead first b mem
    obtain ⟨front, last, whole, found⟩ := countedBlock_filterMap lead counter first
      (Finding.ofInstruction? m' true f') (counted.ended b mem)
    have same := number_alike (filterMap_alike grown true fun inst inside =>
      known inst (List.mem_flatMap.mpr ⟨b, mem, inside⟩)) kind
    have new : Finding.number kind ((increments counter first).filterMap
        (Finding.ofInstruction? m' true f')) = [Finding.Kind.load, .store].count kind := rfl
    rw [whole, List.filterMap_append, List.filterMap_append, Finding.number_append,
      Finding.number_append] at same
    have name : (countedBlock lead counter first b).name = b.name := rfl
    simp only [Module.blockFindings, found, name, whole, List.filterMap_append,
      Finding.number_append, new]
    omega
  rw [counted.blocks, Function.isDeclaration]
  cases blocks : f.blocks with
  | nil => simp
  | cons b bs =>
    rw [blocks] at block
    have others : Finding.number kind ((bs.mapIdx fun k => countedBlock
        (if k + 1 = 0 then before else []) counter (f.values.length + 2 * (k + 1))).flatMap
          (m'.blockFindings true f')) = Finding.number kind (bs.flatMap (m.blockFindings true f)) +
        bs.length * [Finding.Kind.load, .store].count kind :=
      number_flatMap_mapIdx fun k b mem => by
        simpa using block [] _ b (List.mem_cons_of_mem _ mem)
    rw [List.mapIdx_cons, List.flatMap_cons, List.flatMap_cons, Finding.number_append,
      Finding.number_append, others, if_pos rfl, block _ _ b List.mem_cons_self, List.length_cons,
      Nat.add_mul]
    simp only [List.isEmpty_cons, Bool.false_eq_true, if_false]
    omega

/-- What is known of a function of a valid module and of its place when the module is counted. -/
structure CountedIn (m m' : Module) (before : List Instruction) (counter : GlobalId)
    (f f' : Function) : Prop where
  counted : Counted before counter f f'
  grown : Enlarged m f m' f'
  known : ∀ inst ∈ f.instructions, ∀ o ∈ inst.op.operands, o.In m f
  texts : ∀ inst ∈ f.instructions, (operationText m f inst.op).isSome

theorem CountedIn.name_eq (made : CountedIn m m' before counter f f') : f'.name = f.name := by
  rw [made.counted.frame]

private theorem body_eq (m : Module) (f : Function) : f.blocks.flatMap (m.blockFindings false f) =
    f.instructions.filterMap (Finding.ofInstruction? m false f) := by
  rw [Function.instructions, List.filterMap_flatMap]
  rfl

private theorem functionFindings_line (m : Module) (f : Function) :
    (∀ x ∈ m.functionFindings false f, (x.line m).isSome) ↔
      ∀ x ∈ f.blocks.flatMap (m.blockFindings false f), (x.line m).isSome := by
  rw [Module.functionFindings, List.forall_mem_cons]
  exact and_iff_right rfl

/-- The findings in the body, where the call of the hook may stand first. -/
theorem CountedIn.body (made : CountedIn m m' before counter f f') :
    ∃ body, List.Forall₂ (Finding.Alike m m') (f.blocks.flatMap (m.blockFindings false f)) body ∧
      f'.blocks.flatMap (m'.blockFindings false f') =
        (if f.isDeclaration then [] else
          before.filterMap (Finding.ofInstruction? m' false f')) ++ body := by
  refine ⟨_, ?_, made.counted.bodyFindings m'⟩
  rw [body_eq]
  exact filterMap_alike made.grown false made.known

theorem CountedIn.findings (made : CountedIn m m' [] counter f f') :
    List.Forall₂ (Finding.Alike m m') (m.functionFindings false f)
      (m'.functionFindings false f') := by
  obtain ⟨body, alike, found⟩ := made.body
  have empty : (if f.isDeclaration then [] else
      [].filterMap (Finding.ofInstruction? m' false f')) = [] := by
    split <;> rfl
  rw [empty, List.nil_append] at found
  rw [Module.functionFindings, Module.functionFindings, found, made.name_eq]
  exact .cons ⟨rfl, .refl _⟩ alike

theorem CountedIn.number (made : CountedIn m m' before counter f f') (kind : Finding.Kind) :
    Finding.number kind (m'.functionFindings true f') =
      Finding.number kind (m.functionFindings true f) +
        f.blocks.length * [Finding.Kind.load, .store].count kind +
        if f.isDeclaration then 0 else
          Finding.number kind (before.filterMap (Finding.ofInstruction? m' true f')) := by
  rw [Module.functionFindings, Module.functionFindings, Finding.number_cons, Finding.number_cons,
    made.counted.bodyNumber made.grown made.known, made.name_eq]
  omega

/-- Which lines there are, before the function is counted and then. -/
theorem CountedIn.lines (made : CountedIn m m' before counter f f')
    (lead : ∀ x ∈ before.filterMap (Finding.ofInstruction? m' false f'), (x.line m').isSome) :
    ((∀ x ∈ m.functionFindings false f, (x.line m).isSome) ↔ f.ShowsWithin f.values.length) ∧
    ((∀ x ∈ m'.functionFindings false f', (x.line m').isSome) ↔
      f.ShowsWithin (f.values.length + 2 * f.blocks.length)) := by
  obtain ⟨added, values, size, -⟩ := made.counted.values
  have more : f'.values.length = f.values.length + 2 * f.blocks.length := by simp [values, size]
  have known : ∀ inst ∈ f.instructions, ∀ o ∈ inst.op.operands, o.In m' f' := by
    intro inst mem o among
    obtain ⟨text, shown⟩ := Option.isSome_iff_exists.mp
      (operandText_isSome.mpr (made.known inst mem o among))
    exact operandText_isSome.mp (Option.isSome_of_eq_some (operandText_kept made.grown o _ shown))
  have texts : ∀ inst ∈ f.instructions, (operationText m' f' inst.op).isSome := by
    intro inst mem
    obtain ⟨text, shown⟩ := Option.isSome_iff_exists.mp (made.texts inst mem)
    exact Option.isSome_of_eq_some (operationText_kept made.grown _ _ shown)
  refine ⟨?_, ?_⟩
  · rw [functionFindings_line, body_eq]
    exact filterMap_line made.known made.texts
  · have hooks : ∀ x ∈ (if f.isDeclaration then [] else
        before.filterMap (Finding.ofInstruction? m' false f')), (x.line m').isSome := by
      split
      · exact List.forall_mem_nil _
      · exact lead
    rw [functionFindings_line, made.counted.bodyFindings, ← more, List.forall_mem_append,
      and_iff_right hooks]
    exact filterMap_line known texts

private theorem forall_mem_of_forall₂ {α β : Type} {p : α → Prop} {q : β → Prop} {l : List α}
    {l' : List β} (each : List.Forall₂ (fun a b => p a ↔ q b) l l') :
    (∀ a ∈ l, p a) ↔ ∀ b ∈ l', q b := by
  induction each with
  | nil => simp
  | cons first _ ih => rw [List.forall_mem_cons, List.forall_mem_cons, first, ih]

private theorem forall₂_of_getElem? {α β : Type} {R : α → β → Prop} {l : List α} {l' : List β}
    (size : l'.length = l.length)
    (each : ∀ (k : Nat) (a : α), l[k]? = some a → ∃ b, l'[k]? = some b ∧ R a b) : List.Forall₂ R l l' := by
  refine List.forall₂_iff_get.mpr ⟨size.symm, fun k inside inside' => ?_⟩
  obtain ⟨b, here, related⟩ := each k _ (List.getElem?_eq_getElem inside)
  obtain rfl : l'[k] = b := Option.some.inj ((List.getElem?_eq_getElem inside').symm.trans here)
  exact related

end

/-- The functions of a counted module: those in front of the entry function `e`, this one, in which
the hook is called, those behind it, and the hook if it is new. -/
structure CountedAround (s : Settings) (m m' : Module) (hook : FuncId) (front : List Function)
    (e : Function) (back front' : List Function) (e' : Function) (back' : List Function) : Prop where
  callable : ∃ g, m'.function? hook = some g ∧ g.name = s.hook
  old : m.functions = front ++ e :: back
  new : m'.functions = front' ++ e' :: back' ++ hookDeclaration m s.hook
  entered : CountedIn m m' [hookCall hook] ⟨m.globals.length⟩ e e'
  fronts : List.Forall₂ (CountedIn m m' [] ⟨m.globals.length⟩) front front'
  backs : List.Forall₂ (CountedIn m m' [] ⟨m.globals.length⟩) back back'

theorem count_functions {s : Settings} {m m' : Module} (built : m.Built)
    (valid : m.isValid = true) (ok : count s m = (.ok true, m')) :
    ∃ entry hook front e back front' e' back', m.functionNamed? s.entry = some entry ∧
      m.function? entry = some e ∧ CountedAround s m m' hook front e back front' e' back' := by
  obtain ⟨entry, hook, counted, parts⟩ := count_parts built ok
  obtain ⟨g, callable, called, -⟩ := parts.callable
  have made : ∀ {before f f'}, f ∈ m.functions → Counted before ⟨m.globals.length⟩ f f' →
      Enlarged m f m' f' → CountedIn m m' before ⟨m.globals.length⟩ f f' := by
    intro before f f' mem made grown
    have sound := Module.functionDefects_of_valid valid mem
    refine ⟨made, grown, fun inst among o inside => ?_, fun inst among => ?_⟩
    · obtain ⟨b, site, known⟩ := Function.sound_instruction sound among
      exact (known.operands o inside).inside
    · obtain ⟨b, site, known⟩ := Function.sound_instruction sound among
      exact known.operationText
  obtain ⟨e, here, -⟩ := function?_of_named parts.named
  obtain ⟨e', there, hooked, grown⟩ := parts.each _ _ here
  rw [if_pos rfl] at hooked
  obtain ⟨inside, same⟩ := List.getElem?_eq_some_iff.mp here
  obtain ⟨inside', same'⟩ := List.getElem?_eq_some_iff.mp there
  refine ⟨entry, hook, m.functions.take entry.index, e, m.functions.drop (entry.index + 1),
    counted.take entry.index, e', counted.drop (entry.index + 1), parts.named, here,
    ⟨g, callable, called⟩, ?_, ?_, made (List.mem_of_getElem? here) hooked grown, ?_, ?_⟩
  · rw [← same, List.getElem_cons_drop, List.take_append_drop]
  · rw [← same', List.getElem_cons_drop, List.take_append_drop, parts.whole]
  · refine forall₂_of_getElem? (by simp [parts.size]) fun k f found => ?_
    rw [List.getElem?_take] at found
    split at found
    · next below =>
      obtain ⟨f', new, counted, grown⟩ := parts.each _ _ found
      rw [if_neg (by omega)] at counted
      exact ⟨f', by rwa [List.getElem?_take, if_pos below],
        made (List.mem_of_getElem? found) counted grown⟩
    · cases found
  · refine forall₂_of_getElem? (by simp [parts.size]) fun k f found => ?_
    rw [List.getElem?_drop] at found
    obtain ⟨f', new, counted, grown⟩ := parts.each _ _ found
    rw [if_neg (by omega)] at counted
    exact ⟨f', by rw [List.getElem?_drop]; exact new, made (List.mem_of_getElem? found) counted grown⟩

private theorem hookCall_finding {m : Module} {hook : FuncId} {g : Function}
    (here : m.function? hook = some g) (detailed : Bool) (f : Function) :
    [hookCall hook].filterMap (Finding.ofInstruction? m detailed f) = [.callee g.name] := by
  simp [Finding.ofInstruction?, hookCall, Finding.ofCall, Operand.function?, here]

private theorem hookDeclaration_findings (m m' : Module) (hook : String) (detailed : Bool) :
    (hookDeclaration m hook).flatMap (m'.functionFindings detailed) =
      if (m.functionNamed? hook).isSome then [] else [.function hook] := by
  unfold hookDeclaration
  split <;> rfl

section
variable {m m' : Module} {f f' : Function} {counter : GlobalId} {name : String}

private theorem number_functions {fs fs' : List Function} (kind : Finding.Kind)
    (made : List.Forall₂ (CountedIn m m' [] counter) fs fs') :
    Finding.number kind (fs'.flatMap (m'.functionFindings true)) =
      Finding.number kind (fs.flatMap (m.functionFindings true)) +
        (fs.flatMap (·.blocks)).length * [Finding.Kind.load, .store].count kind := by
  induction made with
  | nil => simp
  | @cons f f' fs fs' first _ ih =>
    have here := first.number kind
    simp only [List.filterMap_nil, Finding.number_nil, ite_self, Nat.add_zero] at here
    simp only [List.flatMap_cons, Finding.number_append, List.length_append, Nat.add_mul, here, ih]
    omega

private theorem function_notMem_body :
    Finding.function name ∉ f.blocks.flatMap (m.blockFindings false f) := by
  rw [body_eq, List.mem_filterMap]
  rintro ⟨inst, -, found⟩
  unfold Finding.ofInstruction? at found
  split at found <;> simp only [Bool.false_eq_true, if_false, reduceCtorEq, Option.some.injEq,
    Finding.ofCall] at found
  all_goals split at found <;> cases found

private theorem function_mem_functionFindings :
    Finding.function name ∈ m.functionFindings false f ↔ f.name = name := by
  rw [Module.functionFindings, List.mem_cons, or_iff_left function_notMem_body]
  simp [eq_comm]

/-- No other finding is on the line of a function. -/
theorem line_function {x : Finding} (here : x.line m = some ("found function " ++ name)) :
    x = .function name := by
  cases x with
  | function n =>
    have same : n = name := by simpa [Finding.line] using here
    rw [same]
  | block | callee =>
    have same := congrArg String.toList (Option.some.inj here)
    simp at same
  | _ =>
    obtain ⟨text, -, same⟩ := Option.map_eq_some_iff.mp here
    have chars := congrArg String.toList same
    simp at chars

end

private theorem mapM_append_eq_some {α β : Type} {text : α → Option β} {xs ys : List α}
    {zs : List β} :
    (xs ++ ys).mapM text = some zs ↔
      ∃ as bs, xs.mapM text = some as ∧ ys.mapM text = some bs ∧ zs = as ++ bs := by
  simp [List.mapM_append, Option.bind_eq_some_iff, eq_comm (a := zs)]

private theorem mapM_line_function {m : Module} {name : String} {xs : List Finding}
    {lines : List String} : (.function name :: xs).mapM (·.line m) = some lines ↔
      ∃ rest, xs.mapM (·.line m) = some rest ∧ lines = ("found function " ++ name) :: rest := by
  simp [List.mapM_cons, Option.bind_eq_some_iff, Finding.line, eq_comm (a := lines)]

private theorem exists_of_mem_mapM {α β : Type} {text : α → Option β} :
    ∀ {xs : List α} {ys : List β},
    xs.mapM text = some ys → ∀ y ∈ ys, ∃ x ∈ xs, text x = some y
  | [], ys, made, y, mem => by
    cases made
    cases mem
  | x :: xs, ys, made, y, mem => by
    simp only [List.mapM_cons, Option.bind_eq_bind, Option.bind_eq_some_iff, Option.pure_def,
      Option.some.injEq] at made
    obtain ⟨first, here, rest, others, rfl⟩ := made
    rcases List.mem_cons.mp mem with rfl | among
    · exact ⟨x, List.mem_cons_self, here⟩
    · obtain ⟨x', inside, there⟩ := exists_of_mem_mapM others y among
      exact ⟨x', List.mem_cons_of_mem _ inside, there⟩

section
variable {s : Settings} {m m' : Module} {hook : FuncId} {e e' : Function}
  {front back front' back' : List Function}

theorem CountedAround.old_findings
    (around : CountedAround s m m' hook front e back front' e' back') (detailed : Bool) :
    m.findings detailed = front.flatMap (m.functionFindings detailed) ++
      (m.functionFindings detailed e ++ back.flatMap (m.functionFindings detailed)) := by
  rw [Module.findings, around.old, List.flatMap_append, List.flatMap_cons]

theorem CountedAround.new_findings
    (around : CountedAround s m m' hook front e back front' e' back') (detailed : Bool) :
    m'.findings detailed = front'.flatMap (m'.functionFindings detailed) ++
      (m'.functionFindings detailed e' ++ back'.flatMap (m'.functionFindings detailed)) ++
      if (m.functionNamed? s.hook).isSome then [] else [.function s.hook] := by
  rw [Module.findings, around.new, List.flatMap_append, hookDeclaration_findings,
    List.flatMap_append, List.flatMap_cons]

/-- The call of the hook as it is found. -/
theorem CountedAround.lead (around : CountedAround s m m' hook front e back front' e' back')
    (detailed : Bool) (f : Function) :
    [hookCall hook].filterMap (Finding.ofInstruction? m' detailed f) = [.callee s.hook] := by
  obtain ⟨g, here, name⟩ := around.callable
  rw [hookCall_finding here, name]

theorem CountedAround.lines_isSome
    (around : CountedAround s m m' hook front e back front' e' back') :
    List.Forall₂ (fun f f' =>
      ((∀ x ∈ m.functionFindings false f, (x.line m).isSome) ↔ f.ShowsWithin f.values.length) ∧
      ((∀ x ∈ m'.functionFindings false f', (x.line m').isSome) ↔
        f.ShowsWithin (f.values.length + 2 * f.blocks.length)))
      m.functions (front' ++ e' :: back') := by
  have plain : ∀ {f f'}, CountedIn m m' [] ⟨m.globals.length⟩ f f' → _ := fun made =>
    made.lines (List.forall_mem_nil _)
  have entered := around.entered.lines fun x mem => by
    rw [around.lead, List.mem_singleton] at mem
    rw [mem]
    rfl
  rw [around.old]
  exact List.rel_append (around.fronts.imp fun _ _ => plain)
    (.cons entered (around.backs.imp fun _ _ => plain))

theorem reportLines_isSome {detailed : Bool} : (m.reportLines detailed).isSome ↔
    ∀ f ∈ m.functions, ∀ x ∈ m.functionFindings detailed f, (x.line m).isSome := by
  rw [Module.reportLines, mapM_isSome, Module.findings, List.forall_mem_flatMap]

theorem CountedAround.isSome_old
    (around : CountedAround s m m' hook front e back front' e' back') :
    (m.reportLines false).isSome ↔ ∀ f ∈ m.functions, f.ShowsWithin f.values.length := by
  rw [reportLines_isSome]
  refine forall₂_congr fun f mem => ?_
  obtain ⟨k, here⟩ := List.getElem?_of_mem mem
  obtain ⟨inside, rfl⟩ := List.getElem?_eq_some_iff.mp here
  exact (around.lines_isSome.get inside (around.lines_isSome.length_eq ▸ inside)).1

theorem CountedAround.isSome_new
    (around : CountedAround s m m' hook front e back front' e' back') :
    (m'.reportLines false).isSome ↔
      ∀ f ∈ m.functions, f.ShowsWithin (f.values.length + 2 * f.blocks.length) := by
  have hooks : ∀ f ∈ hookDeclaration m s.hook, ∀ x ∈ m'.functionFindings false f,
      (x.line m').isSome := by
    rw [← List.forall_mem_flatMap, hookDeclaration_findings]
    split
    · exact List.forall_mem_nil _
    · simp [Finding.line]
  rw [reportLines_isSome, around.new, List.forall_mem_append, and_iff_left hooks]
  exact (forall_mem_of_forall₂ (around.lines_isSome.imp fun _ _ each => each.2.symm)).symm

private theorem mark_free {xs : List Finding} {lines : List String} {name : String}
    (found : xs.mapM (·.line m) = some lines) (other : .function name ∉ xs) :
    "found function " ++ name ∉ lines := by
  intro mem
  obtain ⟨x, among, here⟩ := exists_of_mem_mapM found _ mem
  exact other (line_function here ▸ among)

/-- No other function has the name of the entry function. -/
theorem CountedAround.function_free (built : m.Built)
    (around : CountedAround s m m' hook front e back front' e' back') :
    .function e.name ∉ front.flatMap (m.functionFindings false) ∧
      .function e.name ∉ e.blocks.flatMap (m.blockFindings false e) ++
        back.flatMap (m.functionFindings false) := by
  have distinct : (m.functions.map (·.name)).Nodup := built.coherent.distinct.of_append_right
  rw [around.old, List.map_append, List.map_cons, List.nodup_middle, List.nodup_cons,
    List.mem_append, not_or] at distinct
  obtain ⟨⟨above, below⟩, -⟩ := distinct
  have elsewhere : ∀ {fs : List Function}, e.name ∉ fs.map (·.name) →
      .function e.name ∉ fs.flatMap (m.functionFindings false) := by
    intro fs absent mem
    obtain ⟨f, among, found⟩ := List.mem_flatMap.mp mem
    exact absent (List.mem_map.mpr ⟨f, among, function_mem_functionFindings.mp found⟩)
  refine ⟨elsewhere above, fun mem => ?_⟩
  rcases List.mem_append.mp mem with body | others
  · exact function_notMem_body body
  · exact elsewhere below others

theorem CountedAround.lines (built : m.Built)
    (around : CountedAround s m m' hook front e back front' e' back') {lines : List String}
    (found : m.reportLines false = some lines) : ∃ above below,
      lines = above ++ ("found function " ++ e.name) :: below ∧
      "found function " ++ e.name ∉ above ∧ "found function " ++ e.name ∉ below ∧
      m'.reportLines false = some (above ++ ("found function " ++ e.name) ::
        ((if e.isDeclaration then [] else ["found callee: " ++ s.hook]) ++ below ++
          if (m.functionNamed? s.hook).isSome then [] else ["found function " ++ s.hook])) := by
  obtain ⟨free_above, free_below⟩ := around.function_free built
  rw [Module.reportLines, around.old_findings, mapM_append_eq_some] at found
  obtain ⟨above, _, front_lines, rest, rfl⟩ := found
  rw [Module.functionFindings, List.cons_append, mapM_line_function] at rest
  obtain ⟨below, back_lines, rfl⟩ := rest
  refine ⟨above, below, rfl, mark_free front_lines free_above, mark_free back_lines free_below, ?_⟩
  obtain ⟨body, alike, body_found⟩ := around.entered.body
  have fronts := mapM_line_alike (List.rel_flatMap around.fronts fun _ _ made => made.findings)
    _ front_lines
  have backs := mapM_line_alike (List.rel_append alike
    (List.rel_flatMap around.backs fun _ _ made => made.findings)) _ back_lines
  have called : (if e.isDeclaration then [] else [Finding.callee s.hook]).mapM (·.line m') =
      some (if e.isDeclaration then [] else ["found callee: " ++ s.hook]) := by
    split <;> rfl
  have declared : (if (m.functionNamed? s.hook).isSome then [] else
      [Finding.function s.hook]).mapM (·.line m') =
      some (if (m.functionNamed? s.hook).isSome then [] else ["found function " ++ s.hook]) := by
    split <;> rfl
  rw [around.lead] at body_found
  rw [Module.reportLines, around.new_findings, Module.functionFindings, body_found,
    around.entered.name_eq]
  simp only [List.append_assoc, List.cons_append]
  refine mapM_append_eq_some.mpr ⟨_, _, fronts, mapM_line_function.mpr ⟨_, ?_, rfl⟩, rfl⟩
  refine mapM_append_eq_some.mpr ⟨_, _, called, ?_, rfl⟩
  rw [← List.append_assoc]
  exact mapM_append_eq_some.mpr ⟨_, _, backs, declared, rfl⟩

theorem CountedAround.number (around : CountedAround s m m' hook front e back front' e' back')
    (kind : Finding.Kind) : m'.totals.of kind = m.totals.of kind +
      m.blockCount * [Finding.Kind.load, .store].count kind +
      Finding.number kind (if e.isDeclaration then [] else [.callee s.hook]) +
      Finding.number kind (if (m.functionNamed? s.hook).isSome then [] else [.function s.hook]) := by
  have entered := around.entered.number kind
  rw [around.lead] at entered
  have blocks : m.blockCount = (front.flatMap (·.blocks)).length + e.blocks.length +
      (back.flatMap (·.blocks)).length := by
    simp [Module.blockCount, around.old, Nat.add_assoc]
  rw [Module.totals, Module.totals, Totals.ofFindings_of, Totals.ofFindings_of,
    around.new_findings, around.old_findings, blocks, Nat.add_mul, Nat.add_mul]
  simp only [Finding.number_append, number_functions kind around.fronts,
    number_functions kind around.backs, entered]
  have hooked : (if e.isDeclaration then 0 else Finding.number kind [.callee s.hook]) =
      Finding.number kind (if e.isDeclaration then [] else [.callee s.hook]) := by
    split <;> rfl
  omega

end

/-- A valid module that is counted. Its report has all its lines exactly if the instructions that it
shows have their results in the table; after counting they may also be new values of the counter. The
lines are then those from before, the call of the hook right behind the entry function if that has a
body, and the hook at the end if it is new. In detail each block loads and stores once more. -/
theorem count_report {s : Settings} {m m' : Module} (built : m.Built) (valid : m.isValid = true)
    (ok : count s m = (.ok true, m')) :
    ∃ entry e, m.functionNamed? s.entry = some entry ∧ m.function? entry = some e ∧
      ((m.reportLines false).isSome ↔ ∀ f ∈ m.functions, f.ShowsWithin f.values.length) ∧
      ((m'.reportLines false).isSome ↔
        ∀ f ∈ m.functions, f.ShowsWithin (f.values.length + 2 * f.blocks.length)) ∧
      (∀ lines, m.reportLines false = some lines → ∃ above below,
        lines = above ++ ("found function " ++ s.entry) :: below ∧
        "found function " ++ s.entry ∉ above ∧ "found function " ++ s.entry ∉ below ∧
        m'.reportLines false = some (above ++ ("found function " ++ s.entry) ::
          ((if e.isDeclaration then [] else ["found callee: " ++ s.hook]) ++ below ++
            if (m.functionNamed? s.hook).isSome then [] else ["found function " ++ s.hook]))) ∧
      m'.totals.loads = m.totals.loads + m.blockCount ∧
      m'.totals.stores = m.totals.stores + m.blockCount ∧
      m'.totals.directCalls = m.totals.directCalls + (if e.isDeclaration then 0 else 1) ∧
      m'.totals.functions = m.totals.functions +
        (if (m.functionNamed? s.hook).isSome then 0 else 1) ∧
      m'.totals.blocks = m.totals.blocks ∧ m'.totals.allocas = m.totals.allocas ∧
      m'.totals.compares = m.totals.compares ∧
      m'.totals.indirectCalls = m.totals.indirectCalls := by
  obtain ⟨entry, hook, front, e, back, front', e', back', named, here, around⟩ :=
    count_functions built valid ok
  obtain ⟨e, found, name⟩ := function?_of_named named
  obtain rfl := Option.some.inj (here.symm.trans found)
  refine ⟨entry, _, named, here, around.isSome_old, around.isSome_new, ?_, ?_⟩
  · intro lines made
    rw [← name]
    exact around.lines built made
  · have total : ∀ kind, _ := around.number
    simp only [Finding.number_if, List.count_cons, List.count_nil] at total
    refine ⟨?_, ?_, ?_, ?_, ?_, ?_, ?_, ?_⟩
    · simpa [Totals.of, Finding.kind] using total .load
    · simpa [Totals.of, Finding.kind] using total .store
    · simpa [Totals.of, Finding.kind] using total .callee
    · simpa [Totals.of, Finding.kind] using total .function
    · simpa [Totals.of, Finding.kind] using total .block
    · simpa [Totals.of, Finding.kind] using total .alloca
    · simpa [Totals.of, Finding.kind] using total .compare
    · simpa [Totals.of, Finding.kind] using total .indirectCall

/-- A slot whose result bears the number of the first value, which is not there. -/
def unlisted (name : String) : Function where
  name
  ret := .void
  blocks := [⟨"", [{ result := some ⟨0⟩, op := .alloca .i64 none }, { op := .ret .void none }]⟩]

private theorem unlisted_built (name : String) :
    Module.Built { name := "m", functions := [unlisted name] } := by
  have steps : Function.Steps { name, ret := .void } (unlisted name) :=
    .tail (.single (.addBlock _ "")) (.setBlock _ ⟨0⟩ ⟨"", _⟩)
  exact .addFunction (.new "m") ⟨name, .void, steps⟩
    (Module.addFunction_eq_ok.mpr ⟨List.not_mem_nil, rfl, rfl⟩)

/-- A report on the module cannot show the slot. Once its block is counted, the value is there, and
the slot is shown as if it made this value. -/
theorem unlisted_appears : Module.Built { name := "m", functions := [unlisted "main"] } ∧
    Module.isValid { name := "m", functions := [unlisted "main"] } = true ∧
    Module.reportLines { name := "m", functions := [unlisted "main"] } false = none ∧
    ∃ m', count {} { name := "m", functions := [unlisted "main"] } = (.ok true, m') ∧
      m'.reportLines false = some ["found function main", "found callee: setupAtExit",
        "found alloca inst:   %old.bb.count = alloca i64", "found function setupAtExit"] :=
  ⟨unlisted_built "main", by decide +kernel, by decide +kernel, _,
    Edit.run_of_fst (by decide +kernel), by decide +kernel⟩

theorem count_report_returning :
    Module.Built { name := "m", functions := [returning "main"] } ∧
    Module.isValid { name := "m", functions := [returning "main"] } = true ∧
    ∃ m', count {} { name := "m", functions := [returning "main"] } = (.ok true, m') ∧
      (m'.reportLines false).isSome ∧
      m'.totals.loads =
        (Module.totals { name := "m", functions := [returning "main"] }).loads + 1 := by
  obtain ⟨m', ok⟩ : ∃ m', count {} { name := "m", functions := [returning "main"] } =
      (.ok true, m') := ⟨_, Edit.run_of_fst (by decide +kernel)⟩
  obtain ⟨_, _, -, -, -, lines, -, loads, -⟩ := count_report (returning_module_built "main") rfl ok
  refine ⟨returning_module_built "main", rfl, m', ok, lines.mpr ?_, loads⟩
  simp [Function.ShowsWithin, Function.instructions, returning]

end Tally

end BlockTally
