import BlockTally.Proofs.Findings.Counted
import BlockTally.Proofs.Listing.Reloaded
import BlockTally.Proofs.Tally.Relisted

/-! A counted module that is written and loaded again: it has the same text, what was counted is still
there, and it is not counted a second time. Main statement: `instrument_reloaded`. -/
namespace BlockTally
open Listing

/-! Numbers of instructions. -/

theorem Module.instructionCount_eq (m : Module) :
    m.instructionCount = (m.functions.map (·.instructionCount)).sum := by
  simp [instructionCount, Function.instructionCount, List.length_flatMap, List.flatMap_assoc]

theorem Module.blockCount_eq (m : Module) :
    m.blockCount = (m.functions.map (·.blocks.length)).sum := by
  simp [blockCount, List.length_flatMap]

theorem Function.instructionCount_reread (m : Module) (f : Function) :
    (f.reread m).instructionCount = f.instructionCount := by
  simp [instructionCount, reread, Block.reread, List.length_flatMap, Function.comp_def]

theorem Module.instructionCount_reread (m : Module) : m.reread.instructionCount = m.instructionCount := by
  rw [instructionCount_eq, instructionCount_eq, reread, List.map_map]
  exact congrArg List.sum (List.map_congr_left fun f _ => f.instructionCount_reread m)

theorem Module.blockCount_reread (m : Module) : m.reread.blockCount = m.blockCount := by
  rw [blockCount_eq, blockCount_eq, reread, List.map_map]
  exact congrArg List.sum (List.map_congr_left fun f _ => by simp [Function.reread])

namespace Tally
variable {s : Settings} {m m' : Module} {f f' : Function} {before : List Instruction}
  {counter : GlobalId}

private theorem countedBlock_length (before : List Instruction) (counter : GlobalId) (first : Nat)
    {b : Block} (ends : b.terminator?.isSome) :
    (countedBlock before counter first b).insts.length = before.length + b.insts.length + 3 := by
  obtain ⟨last, known, whole⟩ := countedBlock_eq before counter first ends
  obtain ⟨-, front, old⟩ := Block.terminator?_eq_some.mp known
  have three : (increments counter first).length = 3 := rfl
  simp only [whole, old, List.dropLast_concat, List.length_append, List.length_singleton, three]
  omega

theorem Counted.instructionCount (made : Counted before counter f f') :
    f'.instructionCount = f.instructionCount + 3 * f.blocks.length +
      if f.isDeclaration then 0 else before.length := by
  have others : ∀ (bs : List Block) (first : Nat → Nat), (∀ b ∈ bs, b.terminator?.isSome) →
      ((bs.mapIdx fun k b => countedBlock [] counter (first k) b).flatMap (·.insts)).length =
        (bs.flatMap (·.insts)).length + 3 * bs.length := by
    intro bs
    induction bs with
    | nil => exact fun _ _ => rfl
    | cons b bs ih =>
      intro first ended
      obtain ⟨here, later⟩ := List.forall_mem_cons.mp ended
      rw [List.mapIdx_cons, List.flatMap_cons, List.length_append, countedBlock_length _ _ _ here,
        ih _ later, List.flatMap_cons, List.length_append, List.length_cons, List.length_nil]
      omega
  have ended := made.ended
  rw [Function.instructionCount, made.blocks, Function.instructionCount, Function.isDeclaration]
  cases blocks : f.blocks with
  | nil => rfl
  | cons b bs =>
    rw [blocks] at ended
    obtain ⟨here, later⟩ := List.forall_mem_cons.mp ended
    have rest := others bs (fun k => f.values.length + 2 * (k + 1)) later
    simp only [List.mapIdx_cons, List.flatMap_cons, List.length_append, List.length_cons,
      List.isEmpty_cons, Bool.false_eq_true, if_false, if_true, Nat.add_eq_zero_iff, one_ne_zero,
      and_false, countedBlock_length _ _ _ here, rest]
    omega

private theorem instructionCount_functions {fs fs' : List Function}
    (made : List.Forall₂ (CountedIn m m' [] counter) fs fs') :
    (fs'.map (·.instructionCount)).sum =
      (fs.map (·.instructionCount)).sum + 3 * (fs.map (·.blocks.length)).sum := by
  induction made with
  | nil => rfl
  | @cons f f' _ _ first _ ih =>
    have one := first.counted.instructionCount
    simp only [List.length_nil, ite_self] at one
    simp only [List.map_cons, List.sum_cons, one, ih]
    omega

/-- Each block has three instructions more, and the entry function the call of the hook. -/
theorem CountedAround.instructionCount {hook : FuncId} {front back front' back' : List Function}
    {e e' : Function} (around : CountedAround s m m' hook front e back front' e' back') :
    m'.instructionCount = m.instructionCount + 3 * m.blockCount + if e.isDeclaration then 0 else 1 := by
  have entered := around.entered.counted.instructionCount
  have hook_empty : ((hookDeclaration m s.hook).map (·.instructionCount)).sum = 0 := by
    unfold hookDeclaration
    split <;> rfl
  rw [Module.instructionCount_eq, Module.instructionCount_eq, Module.blockCount_eq, around.old,
    around.new]
  simp only [List.map_append, List.map_cons, List.sum_append, List.sum_cons, entered, hook_empty,
    instructionCount_functions around.fronts, instructionCount_functions around.backs,
    List.length_singleton]
  omega

/-! A module that has been instrumented. -/

private theorem instrument_changed (ok : instrument s m = (.ok true, m')) :
    count s m = (.ok true, m') ∧ m'.isValid = true := by
  match ran : count s m with
  | (.error e, m₁) =>
    have stopped : instrument s m = (.error e, m₁) := Edit.bind_of_error ran
    rw [stopped] at ok
    cases ok
  | (.ok changed, m₁) =>
    rw [instrument_eq ran] at ok
    split at ok
    · cases ok
    · next sound =>
      cases ok
      exact ⟨rfl, by simpa using sound⟩

theorem CountedModule.entry_mem {entry hook : FuncId} {counted : List Function}
    (parts : CountedModule s m m' entry hook counted) : s.entry ∈ m'.functions.map (·.name) := by
  obtain ⟨e, here, bears⟩ := function?_of_named parts.named
  obtain ⟨e', there, made, -⟩ := parts.each _ _ here
  have name : e'.name = s.entry := by rw [made.frame, bears]
  rw [parts.whole, ← name]
  exact List.mem_map_of_mem (List.mem_append_left _ (List.mem_of_getElem? there))

/-- The counter is found in the module that is read from the text of a counted one. -/
theorem CountedModule.counter_reread {entry hook : FuncId} {counted : List Function}
    (parts : CountedModule s m m' entry hook counted) (distinct : m'.reread.symbolNames.Nodup) :
    m'.reread.symbol? s.counter = some (.global ⟨m.globals.length⟩) := by
  refine (Module.symbol?_eq_global_iff distinct).mpr ⟨(counterGlobal s.counter).reread, ?_, rfl⟩
  rw [Module.global?_reread, parts.global?_counter]
  rfl

/-- A module whose text is loaded again as a module of the same text has this property also when it is
counted, if its name is on one line. -/
theorem instrument_reloaded {name : String} {bytes : ByteArray} {l : Loaded} (flat : Flat name)
    (loaded : load name bytes = .ok l) {text : String} {again : Loaded}
    (written : moduleText l.module = some text) (reloaded : load name text.toUTF8 = .ok again)
    (same : moduleText again.module = some text) (counter : Unquoted s.counter)
    (hook : Unquoted s.hook) (ok : instrument s l.module = (.ok true, m')) :
    ∃ entry e text' r, l.module.functionNamed? s.entry = some entry ∧
      l.module.function? entry = some e ∧
      moduleText m' = some text' ∧ load name text'.toUTF8 = .ok r ∧
      moduleText r.module = some text' ∧
      r.module.functions.length = m'.functions.length ∧
      r.module.globals.length = m'.globals.length ∧ r.module.blockCount = m'.blockCount ∧
      r.module.instructionCount = l.module.instructionCount + 3 * l.module.blockCount +
        (if e.isDeclaration then 0 else 1) ∧
      instrument { s with onExisting := .fail } r.module =
        (.error (.refused (.alreadyCounted s.counter)), r.module) ∧
      instrument { s with onExisting := .skip } r.module = (.ok false, r.module) := by
  have restorable := (Module.restorable_iff flat loaded).mpr ⟨text, again, written, reloaded, same⟩
  obtain ⟨built, rfl, kept, known, valid⟩ := load_read loaded
  obtain ⟨counted, sound⟩ := instrument_changed ok
  obtain ⟨entry, hookId, functions, parts⟩ := count_parts built counted
  have enriched := count_enriched counted
  have built' := enriched.built built
  have known' := parts.fromText built' (enriched.names fun f mem => (known f mem).names) hook known
  have sameName : m'.name = l.module.name := by rw [parts.whole]
  obtain ⟨text', written', loaded', same'⟩ := (parts.restorable known known' restorable).loads
    (sameName ▸ flat) built' (parts.textKept counter kept) known' sound
  obtain ⟨entry, _, front, e, back, front', e', back', entered, here, around⟩ :=
    count_functions built valid counted
  have names : s.entry ∈ m'.reread.functions.map (·.name) := by
    have mem := parts.entry_mem
    rwa [Module.reread, List.map_map]
  rw [sameName] at loaded'
  have distinct := (load_read loaded').1.coherent.distinct
  refine ⟨entry, e, text', _, entered, here, written', loaded', same', List.length_map _,
    List.length_map _, m'.blockCount_reread,
    m'.instructionCount_reread.trans around.instructionCount, ?_⟩
  exact instrument_again names parts.apart (parts.counter_reread distinct)

/-- A function that ends at once. -/
def minimal : String := "define void @main() \x7b
  ret void
\x7d
"

def minimalText : String := "; ModuleID = 'm'

define void @main() \x7b
  ret void
\x7d
"

def minimalRead : Module where
  name := "m"
  functions := [{ name := "main", ret := .void, blocks := [⟨"", [{ op := .ret .void none }]⟩] }]

def minimalCounted : Module where
  name := "m"
  globals := [counterGlobal "bbCounter"]
  functions := [
    { name := "main", ret := .void
      blocks := [⟨"", [hookCall ⟨1⟩] ++ increments ⟨0⟩ 0 ++ [{ op := .ret .void none }]⟩]
      values := [⟨"old.bb.count", .i64, .instruction⟩, ⟨"new.bb.count", .i64, .instruction⟩] },
    .declare "setupAtExit" .nullary]

theorem instrument_reloaded_minimal : ∃ text entry e text' r,
    load "m" minimal.toUTF8 = .ok ⟨minimalRead, []⟩ ∧ moduleText minimalRead = some text ∧
    load "m" text.toUTF8 = .ok ⟨minimalRead, []⟩ ∧ Unquoted "bbCounter" ∧ Unquoted "setupAtExit" ∧
    instrument {} minimalRead = (.ok true, minimalCounted) ∧
    minimalRead.functionNamed? "main" = some entry ∧ minimalRead.function? entry = some e ∧
    moduleText minimalCounted = some text' ∧ load "m" text'.toUTF8 = .ok r ∧
    moduleText r.module = some text' ∧
    r.module.instructionCount = 1 + 3 * 1 + (if e.isDeclaration then 0 else 1) ∧
    instrument {} r.module = (.error (.refused (.alreadyCounted "bbCounter")), r.module) := by
  have loaded : load "m" minimal.toUTF8 = .ok ⟨minimalRead, []⟩ :=
    load_of_parse (by decide +kernel) ((parse_ofList _ _).trans (by decide +kernel)) (by decide)
  have written : moduleText minimalRead = some minimalText := by decide +kernel
  have reloaded : load "m" minimalText.toUTF8 = .ok ⟨minimalRead, []⟩ :=
    load_of_written written ((parse_ofList _ _).trans (by decide +kernel)) (by decide)
  have counter : Unquoted "bbCounter" := by decide
  have hook : Unquoted "setupAtExit" := by decide
  have ok : instrument {} minimalRead = (.ok true, minimalCounted) := by decide +kernel
  obtain ⟨entry, e, text', r, named, here, there, loaded', same, -, -, -, size, fails, -⟩ :=
    instrument_reloaded (s := {}) (by decide) loaded written reloaded written counter hook ok
  exact ⟨_, entry, e, text', r, loaded, written, reloaded, counter, hook, ok, named, here, there,
    loaded', same, size, fails⟩

/-- A name with line breaks. Behind the first stands a declaration, and behind the second a node in
whose text a quotation mark opens. -/
def quotingName : String := "m\ndeclare void @f()\n!0 = \" ;"

/-- The same declaration and the same node, of which the quotation ends on the next line. -/
def quoting : String := "declare void @f()\n!0 = \" ;'\n\"\n"

def quotingRead : Module where
  name := quotingName
  functions := [{ name := "f", ret := .void }]
  metadata := [(0, "\" ;'")]

def quotingSettings : Settings := { entry := "f", counter := "c", hook := "h" }

def quotingCounted : Module :=
  { quotingRead with
    globals := [counterGlobal "c"]
    functions := quotingRead.functions ++ [.declare "h" .nullary] }

def quotingText : String :=
  "; ModuleID = 'm\ndeclare void @f()\n!0 = \" ;'\n\ndeclare void @f()\n\n!0 = \" ;'\n"

def quotingCountedText : String :=
  "; ModuleID = 'm
declare void @f()
!0 = \" ;'

@c = common global i64 0, align 8

declare void @f()

declare void @h()

!0 = \" ;'
"

set_option maxRecDepth 1000 in
/-- In the text of the module all that stands between the node in the name and the node at the end is
one quotation, and so are the counter and the hook when it is counted. -/
theorem quoting_swallowed : load quotingName quoting.toUTF8 = .ok ⟨quotingRead, []⟩ ∧
    moduleText quotingRead = some quotingText ∧
    load quotingName quotingText.toUTF8 = .ok ⟨quotingRead, []⟩ ∧
    Unquoted quotingSettings.counter ∧ Unquoted quotingSettings.hook ∧
    instrument quotingSettings quotingRead = (.ok true, quotingCounted) ∧
    ¬ ∃ text r, moduleText quotingCounted = some text ∧ load quotingName text.toUTF8 = .ok r ∧
      r.module.globals.length = quotingCounted.globals.length := by
  have written : moduleText quotingRead = some quotingText := by decide +kernel
  have loaded : load quotingName quoting.toUTF8 = .ok ⟨quotingRead, []⟩ :=
    load_of_parse (by decide +kernel) ((parse_ofList _ _).trans (by decide +kernel)) (by decide)
  have reloaded : load quotingName quotingText.toUTF8 = .ok ⟨quotingRead, []⟩ :=
    load_of_written written ((parse_ofList _ _).trans (by decide +kernel)) (by decide)
  have counted : moduleText quotingCounted = some quotingCountedText := by decide +kernel
  have recounted : load quotingName quotingCountedText.toUTF8 = .ok ⟨quotingRead, []⟩ :=
    load_of_written counted ((parse_ofList _ _).trans (by decide +kernel)) (by decide)
  refine ⟨loaded, written, reloaded, by decide, by decide, by decide +kernel, ?_⟩
  rintro ⟨text, r, written, loaded, same⟩
  obtain rfl := Option.some.inj (counted.symm.trans written)
  obtain rfl := Except.ok.inj (recounted.symm.trans loaded)
  exact absurd same (by decide)

end Tally
end BlockTally
