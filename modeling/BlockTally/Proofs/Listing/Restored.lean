import Mathlib.Data.List.Pairwise
import BlockTally.Load
import BlockTally.Proofs.Listing.Beyond
import BlockTally.Proofs.Listing.Renumbered

/-! A module that is loaded from its own text. -/
namespace BlockTally
open Listing Text

/-! Bytes. -/

private theorem toList_loop (bytes : ByteArray) (i : Nat) (front : List UInt8) :
    ByteArray.toList.loop bytes i front = front.reverse ++ bytes.data.toList.drop i := by
  fun_induction ByteArray.toList.loop bytes i front with
  | case1 i front inside ih =>
    have below : i < bytes.data.toList.length := by simpa using inside
    rw [ih, List.drop_eq_getElem_cons below]
    simp [ByteArray.get!, inside]
  | case2 i front outside =>
    rw [List.drop_eq_nil_of_le (by simpa using Nat.le_of_not_lt outside), List.append_nil]

private theorem toList_bytes (bytes : ByteArray) : bytes.toList = bytes.data.toList := by
  simp [ByteArray.toList, toList_loop]

/-- A text that begins with a comment is not taken for a binary module. -/
theorem parseBytes_comment (name text : String) :
    parseBytes name (";" ++ text).toUTF8 = parse name (";" ++ text) := by
  have bytes : (";" ++ text).toUTF8.toList = 0x3B :: text.toUTF8.toList := by
    rw [toList_bytes, toList_bytes, String.toUTF8, String.toByteArray_append,
      ByteArray.toList_data_append]
    rfl
  have plain : bitcodeMagics.any (·.isPrefixOf (";" ++ text).toUTF8.toList) = false := by
    rw [bytes]
    rfl
  rw [parseBytes, plain, if_neg Bool.false_ne_true, fromUTF8?_toUTF8]

private theorem moduleText_comment {m : Module} {text : String}
    (written : moduleText m = some text) :
    ∃ rest, text = ";" ++ rest := by
  obtain ⟨functions, -, whole⟩ := Option.bind_eq_some_iff.mp written
  have first : "; ModuleID = '" = ";" ++ " ModuleID = '" := rfl
  simp only [first, String.append_assoc] at whole
  exact ⟨_, (Option.some.inj whole).symm⟩

/-- A text that is written is no bitcode. -/
theorem parseBytes_written {m : Module} {text : String} (written : moduleText m = some text)
    (name : String) : parseBytes name text.toUTF8 = parse name text := by
  obtain ⟨rest, comment⟩ := moduleText_comment written
  rw [comment, parseBytes_comment]

theorem load_eq_ok {name : String} {bytes : ByteArray} {l : Loaded} : load name bytes = .ok l ↔
    ∃ m, parseBytes name bytes = .ok m ∧ m.isValid = true ∧ l = ⟨m, m.warnings⟩ := by
  rw [load, Failure.bind_eq_ok]
  constructor
  · rintro ⟨m, read, checked⟩
    split at checked
    · rename_i valid
      exact ⟨m, Failure.mapError_eq_ok.mp read, valid, (Except.ok.inj checked).symm⟩
    · cases checked
  · rintro ⟨m, read, valid, rfl⟩
    exact ⟨m, Failure.mapError_eq_ok.mpr read, by rw [if_pos valid]; rfl⟩

/-! What a text of code may lose. -/

/-- The text of the code can be read, gives the same text again and is valid again. -/
structure Function.Restorable (m : Module) (f : Function) : Prop where
  /-- Conditions have one bit. -/
  steady : ∀ inst ∈ f.instructions, inst.op.Steady
  /-- A variadic function whose call has a result returns a value. -/
  results : ∀ inst ∈ f.instructions, inst.result.isSome → inst.op.writtenTy m ≠ .void
  /-- It returns a pointer where memory is reached through the result. -/
  addressed : f.Addressed m

/-- A text that is made of whole tokens. -/
def Lexable (text : String) : Prop := ∃ ts, lex text.toList = .ok ts

structure Module.Restorable (m : Module) : Prop where
  functions : ∀ f ∈ m.functions, f.Restorable m
  named : ∀ node ∈ m.namedMetadata, Lexable node.2
  nodes : ∀ node ∈ m.metadata, Lexable node.2

section
variable {m : Module} {f : Function}

theorem Operation.Steady.readable {op : Operation} (steady : op.Steady) (known : op.FromText m f) :
    ∀ p ∈ op.positions, p.2.ReadableAt p.1 := by
  cases op with
  | condBr cond => exact List.forall_mem_singleton.mpr (Operand.StableAt.readable steady)
  | _ => exact fun p mem => (known.constants nofun p mem).readable

/-- Two items that give the same one of a list without repetitions are the same. -/
theorem eq_of_nodup_filterMap {α β : Type} {g : α → Option β} {xs : List α}
    (distinct : (xs.filterMap g).Nodup) {a b : α} {c : β} (here : a ∈ xs) (there : b ∈ xs)
    (first : g a = some c) (second : g b = some c) : a = b := by
  let Apart (x y : α) : Prop := ∀ p, g x = some p → ∀ q, g y = some q → p ≠ q
  have symmetric : Std.Symm Apart := ⟨fun x y apart p here q there same =>
    apart q there p here same.symm⟩
  have apart : xs.Pairwise Apart := List.pairwise_filterMap.mp distinct
  by_contra other
  exact apart.forall here there other c first c second rfl

theorem Function.FromText.writtenTy_result (known : f.FromText m) {inst : Instruction}
    (mem : inst ∈ f.instructions) {id : ValueId} (result : inst.result = some id) :
    f.writtenTy m id = inst.op.writtenTy m := by
  have among : id ∈ f.results := List.mem_filterMap.mpr ⟨inst, mem, result⟩
  have value : id ∉ f.params := fun param =>
    (List.nodup_append.mp known.numbered.once).2.2 id param id among rfl
  have some : (f.instructions.find? (·.result = some id)).isSome :=
    List.find?_isSome.mpr ⟨inst, mem, by simpa using result⟩
  obtain ⟨first, found⟩ := Option.isSome_iff_exists.mp some
  have same := eq_of_nodup_filterMap known.once (List.mem_of_find?_eq_some found) mem
    (by simpa using List.find?_some found) result
  rw [Function.writtenTy, if_neg value, found, same]
  rfl

/-- The types of the text: those that were read, and what a variadic function returns. -/
theorem Operation.FromText.tys_inRange {op : Operation} (known : op.FromText m f)
    (rets : ∀ g ∈ m.functions, g.ret.InRange) : ∀ ty ∈ op.tys m, ty.InRange := by
  have stated := known.tys
  have site : ∀ call : CallSite, (∀ ty ∈ call.ret :: call.args.map (·.1), ty.InRange) →
      ∀ ty ∈ call.writtenRet m :: call.args.map (·.1), ty.InRange := by
    intro call ranges
    obtain ⟨ret, args⟩ := List.forall_mem_cons.mp ranges
    refine List.forall_mem_cons.mpr ⟨?_, args⟩
    unfold CallSite.writtenRet
    split
    · rename_i callee found
      unfold variadicCallee? at found
      split at found
      · exact rets callee (List.mem_of_getElem? (Option.filter_eq_some_iff.mp found).1)
      · cases found
    · exact ret
  cases op with
  | call call => exact site call stated
  | invoke call => exact site call stated
  | _ => exact stated

section
variable (known : f.FromText m) (globals : ∀ g ∈ m.globals, Unquoted g.name)
  (functions : ∀ g ∈ m.functions, g.FromText m)
include known globals functions

/-- An instruction that is readable but for its condition and its result. -/
theorem Function.FromText.instructionReadable {inst : Instruction} (mem : inst ∈ f.instructions)
    (readable : ∀ p ∈ inst.op.positions, p.2.ReadableAt p.1)
    (result : inst.result.isSome → inst.op.writtenTy m ≠ .void) : InstructionReadable m f inst where
  known := known.instructionKnown globals (fun g among => (functions g among).name) mem
  op := ⟨(known.ops inst mem).tys_inRange fun g among => (functions g among).ret, readable,
    (known.ops inst mem).shaped⟩
  yields := fun _ here => ⟨(known.writtenTy_result mem here).symm, result (by rw [here]; rfl)⟩

/-- A body that is readable but for its conditions and its results. -/
theorem Function.FromText.functionReadable (sound : functionDefects m f = [])
    (readable : ∀ inst ∈ f.instructions, ∀ p ∈ inst.op.positions, p.2.ReadableAt p.1)
    (results : ∀ inst ∈ f.instructions, inst.result.isSome → inst.op.writtenTy m ≠ .void) :
    FunctionReadable m f where
  header := known.header
  trail := known.trail
  unquoted := known.unquoted
  labels := known.labels
  insts := fun inst mem =>
    known.instructionReadable globals functions mem (readable inst mem) (results inst mem)
  settled := by
    intro id mem
    obtain ⟨v, here⟩ := Option.isSome_iff_exists.mp (known.mentioned mem)
    by_cases origin : v.origin = .instruction
    · exact List.mem_append_right _ (known.result id v here origin)
    · exact List.mem_append_left _ (known.param id v here origin).1
  entry := Function.sound_entry sound

end

theorem Lexable.lexed {text : String} (lexable : Lexable text) : ∃ ts, Lexed 0 text.toList ts := by
  obtain ⟨ts, lexed⟩ := lexable
  exact ⟨ts, lexFrom_eq_ok.mp lexed⟩

theorem Listing.NodeText.kept {text : String} (node : NodeText text) (lexable : Lexable text) :
    KeptNode text := ⟨node.flat, node.trim, lexable.lexed⟩

/-- A module that is read can be entered again, if its nodes consist of whole tokens. -/
theorem Module.TextKept.enterable_of_lexable (kept : m.TextKept) (flat : Flat m.name)
    (built : m.Built) (known : ∀ f ∈ m.functions, f.FromText m)
    (named : ∀ node ∈ m.namedMetadata, Lexable node.2)
    (nodes : ∀ node ∈ m.metadata, Lexable node.2) : Enterable m :=
  kept.enterable flat built known
    (fun node mem => (kept.named node mem).2.kept (named node mem))
    fun node mem => (kept.nodes node mem).kept (nodes node mem)

/-- The text of a module that can be read, as the bytes of a file. -/
theorem Listing.Printable.parseBytes {text : String} (printable : Printable m)
    (written : moduleText m = some text) : parseBytes m.name text.toUTF8 = .ok m.reread := by
  obtain ⟨text', written', read⟩ := parse_written printable
  obtain rfl : text = text' := Option.some.inj (written.symm.trans written')
  rw [parseBytes_written written, read]

/-- What is loaded from the text of a module that can be read, and when this has the same text. -/
theorem Listing.Printable.loads {text : String} (printable : Printable m) (kept : m.TextKept)
    (known : ∀ f ∈ m.functions, f.FromText m) (valid : m.isValid = true)
    (written : moduleText m = some text) :
    (∃ again, load m.name text.toUTF8 = .ok again ∧ moduleText again.module = some text) ↔
      (∀ f ∈ m.functions, f.Addressed m) ∧
        ∀ f ∈ m.functions, ∀ inst ∈ f.instructions, inst.op.Steady := by
  obtain ⟨a, b, here, there, tells⟩ := moduleText_retold known kept.initials
    fun f mem inst among => (printable.functions f mem).insts inst among |>.op.positions
  obtain rfl : text = a := Option.some.inj (written.symm.trans here)
  have parsed := printable.parseBytes written
  rw [← isValid_reread known valid, ← tells.iff]
  constructor
  · rintro ⟨again, loaded, same⟩
    obtain ⟨m', read', valid', rfl⟩ := load_eq_ok.mp loaded
    obtain rfl : m.reread = m' := Except.ok.inj (parsed.symm.trans read')
    exact ⟨valid', Option.some.inj (same.symm.trans there)⟩
  · rintro ⟨valid', same⟩
    exact ⟨⟨m.reread, m.reread.warnings⟩, load_eq_ok.mpr ⟨_, parsed, valid', rfl⟩,
      there.trans (congrArg some same.symm)⟩

/-- The text of a restorable module is loaded as the same module, but for its new numbers, and gives
the same text. -/
theorem Module.Restorable.loads (ok : m.Restorable) (flat : Flat m.name) (built : m.Built)
    (kept : m.TextKept) (known : ∀ f ∈ m.functions, f.FromText m) (valid : m.isValid = true) :
    ∃ text, moduleText m = some text ∧
      load m.name text.toUTF8 = .ok ⟨m.reread, m.reread.warnings⟩ ∧ moduleText m.reread = some text := by
  have readable : ∀ f ∈ m.functions, ∀ inst ∈ f.instructions, ∀ p ∈ inst.op.positions,
      p.2.ReadableAt p.1 := fun f mem inst among =>
    ((ok.functions f mem).steady inst among).readable ((known f mem).ops inst among)
  have enterable := kept.enterable_of_lexable flat built known ok.named ok.nodes
  have printable : Printable m := enterable.printable fun f mem =>
    (known f mem).functionReadable (fun g among => (kept.globals g among).name) known
      (Module.functionDefects_of_valid valid mem) (readable f mem) (ok.functions f mem).results
  obtain ⟨text, written, -⟩ := parse_written printable
  obtain ⟨again, loaded, same⟩ := (printable.loads kept known valid written).mpr
    ⟨fun f mem => (ok.functions f mem).addressed, fun f mem => (ok.functions f mem).steady⟩
  obtain ⟨m', read, -, rfl⟩ := load_eq_ok.mp loaded
  obtain rfl : m.reread = m' := Except.ok.inj ((printable.parseBytes written).symm.trans read)
  exact ⟨text, written, loaded, same⟩

/-- A module that is loaded, whatever it is loaded from. -/
theorem load_read {name : String} {bytes : ByteArray} {l : Loaded} (loaded : load name bytes = .ok l) :
    l.module.Built ∧ l.module.name = name ∧ l.module.TextKept ∧
      (∀ f ∈ l.module.functions, f.FromText l.module) ∧ l.module.isValid = true := by
  obtain ⟨m, read, valid, rfl⟩ := load_eq_ok.mp loaded
  obtain ⟨text, parsed⟩ : ∃ text, parse name text = .ok m := by
    unfold parseBytes at read
    split at read
    · cases read
    · split at read
      · cases read
      · exact ⟨_, read⟩
  obtain ⟨built, named, kept, known⟩ := parse_read parsed
  exact ⟨built, named, kept, known, valid⟩

/-- The text of a module that is loaded is loaded again and gives the same text, if the module is
restorable. -/
theorem load_restored {name : String} {bytes : ByteArray} {l : Loaded} (flat : Flat name)
    (loaded : load name bytes = .ok l) (ok : l.module.Restorable) : ∃ text again,
    moduleText l.module = some text ∧ load name text.toUTF8 = .ok again ∧
      moduleText again.module = some text := by
  obtain ⟨built, rfl, kept, known, valid⟩ := load_read loaded
  obtain ⟨text, written, again, same⟩ := ok.loads flat built kept known valid
  exact ⟨text, _, written, again, same⟩

end

theorem load_of_parse {name text : String} {m : Module}
    (plain : bitcodeMagics.any (·.isPrefixOf text.toUTF8.toList) = false)
    (read : parse name text = .ok m) (valid : m.isValid = true) :
    load name text.toUTF8 = .ok ⟨m, m.warnings⟩ := by
  refine load_eq_ok.mpr ⟨m, ?_, valid, rfl⟩
  rw [parseBytes, plain, if_neg Bool.false_ne_true, fromUTF8?_toUTF8]
  exact read

theorem load_of_written {m m' : Module} {text : String} (written : moduleText m = some text)
    {name : String} (read : parse name text = .ok m') (valid : m'.isValid = true) :
    load name text.toUTF8 = .ok ⟨m', m'.warnings⟩ :=
  load_eq_ok.mpr ⟨m', (parseBytes_written written name).trans read, valid, rfl⟩

/-- A branch on a parameter. -/
def branching : String :=
  "define void @f(i1 %c) \x7b
  br i1 %c, label %a, label %a
a:
  ret void
\x7d
"

def branchingRead : Module where
  name := "m"
  functions := [{
    name := "f"
    ret := .void
    params := [⟨0⟩]
    attrs := { params := [""] }
    values := [⟨"c", .int 1, .parameter 0⟩]
    blocks := [⟨"", [{ op := .condBr (.value ⟨0⟩) ⟨1⟩ ⟨1⟩ }]⟩, ⟨"a", [{ op := .ret .void none }]⟩] }]

private theorem load_branching : load "m" branching.toUTF8 =
    .ok ⟨branchingRead, branchingRead.warnings⟩ :=
  load_of_parse (by decide +kernel) ((parse_ofList _ _).trans (by decide +kernel)) (by decide)

private theorem branchingRead_restorable : branchingRead.Restorable := by
  refine ⟨fun f mem => ?_, nofun, nofun⟩
  obtain rfl := List.mem_singleton.mp mem
  refine ⟨fun inst mem => ?_, ?_, fun inst mem id address => ?_⟩
  · obtain rfl | rfl := List.mem_pair.mp mem
    · trivial
    · trivial
  · decide
  · obtain rfl | rfl := List.mem_pair.mp mem
    · cases address
    · cases address

theorem load_restored_branching : Flat "m" ∧
    load "m" branching.toUTF8 = .ok ⟨branchingRead, branchingRead.warnings⟩ ∧
    branchingRead.Restorable ∧ ∃ text again, moduleText branchingRead = some text ∧
      load "m" text.toUTF8 = .ok again ∧ moduleText again.module = some text := by
  have restored := load_restored (by decide) load_branching branchingRead_restorable
  exact ⟨by decide, load_branching, branchingRead_restorable, restored⟩

/-- A branch on a number that is wider than a truth value. -/
def wideCondition : String :=
  "define void @f() \x7b
  br i8 5, label %a, label %a
a:
  ret void
\x7d
"

def wideConditionRead : Module where
  name := "test"
  functions := [{
    name := "f"
    ret := .void
    blocks := [⟨"", [{ op := .condBr (.int 8 5) ⟨1⟩ ⟨1⟩ }]⟩, ⟨"a", [{ op := .ret .void none }]⟩] }]

private theorem load_wideCondition :
    load "test" wideCondition.toUTF8 = .ok ⟨wideConditionRead, wideConditionRead.warnings⟩ :=
  load_of_parse (by decide +kernel) ((parse_ofList _ _).trans (by decide +kernel)) (by decide)

/-- The number is written with one bit, and read again as a truth value. -/
theorem wideCondition_changed : Flat "test" ∧
    load "test" wideCondition.toUTF8 = .ok ⟨wideConditionRead, wideConditionRead.warnings⟩ ∧
    ¬ ∃ text again, moduleText wideConditionRead = some text ∧
      load "test" text.toUTF8 = .ok again ∧ moduleText again.module = some text := by
  refine ⟨by decide, load_wideCondition, ?_⟩
  rintro ⟨text, again, written, loaded, same⟩
  obtain ⟨built, -, kept, known, valid⟩ := load_read load_wideCondition
  have printable : Printable wideConditionRead := by
    refine (kept.enterable_of_lexable (by decide) built known nofun nofun).printable ?_
    intro f mem
    refine (known f mem).functionReadable (fun g mem => absurd mem List.not_mem_nil) known
      (Module.functionDefects_of_valid valid mem) ?_ ?_
    · obtain rfl := List.mem_singleton.mp mem
      intro inst mem
      obtain rfl | rfl := List.mem_pair.mp mem
      · exact List.forall_mem_singleton.mpr rfl
      · exact nofun
    · obtain rfl := List.mem_singleton.mp mem
      decide
  have steady := ((printable.loads kept known valid written).mp ⟨again, loaded, same⟩).2 _
    (List.mem_singleton_self _) _ (List.mem_cons_self ..)
  exact absurd (Ty.int.inj steady) (by decide)

end BlockTally
