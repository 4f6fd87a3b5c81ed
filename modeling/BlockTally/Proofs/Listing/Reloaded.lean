import BlockTally.Proofs.Listing.Closing

/-! What a module is like if its text can be read: reading gets stuck at a condition or a result that
cannot be written, so that none is there. Main statement: `Module.restorable_iff`. -/
namespace BlockTally
namespace Listing
open Read

section
variable {m m' : Module} {f g : Function} {defs uses : List ValueId} {s s' : Scope}
  {ts rest left : List Lexeme}

private theorem not_reads_null {start stop : Nat} {o : Operand} :
    ¬ Reads (readOperand m'.symbol? .i1) (⟨.word "null", start, stop⟩ :: ts) s o left s' := by
  intro read
  have refused : constantOf? .i1 (.word "null") = some (.error (.invalidConstant "null" .i1)) := by
    decide
  simp only [readOperand, reads_bind, reads_peek] at read
  obtain ⟨_, _, _, ⟨rfl, rfl, rfl⟩, read⟩ := read
  simp only [List.head?_cons, readConstant?, reads_bind, reads_peekToken] at read
  obtain ⟨_, _, _, ⟨_, _, _, ⟨rfl, rfl, rfl⟩, constant⟩, -⟩ := read
  simp only [Option.map_some, Option.bind_some, refused] at constant
  exact reads_refuse constant

/-- No condition that is read is a null pointer. -/
theorem condition_readable {cond : Operand} {more : List Token} {op : Operation}
    (tokens : ts.map (·.token) = .word "i1" :: operandToken m f cond :: more)
    (read : Reads (readBranch m'.symbol?) ts s op left s') : cond.ReadableAt .i1 := by
  cases cond with
  | constant c =>
    cases c with
    | null =>
      obtain ⟨t, _, rfl, first, behind⟩ := List.map_eq_cons_iff.mp tokens
      obtain ⟨⟨token, start, stop⟩, ts, rfl, second, -⟩ := List.map_eq_cons_iff.mp behind
      obtain rfl : token = .word "null" := second
      have label : t.token ≠ .word "label" := by
        rw [first]
        decide
      simp only [readBranch, reads_bind, reads_peekToken] at read
      obtain ⟨_, _, _, ⟨rfl, rfl, rfl⟩, read⟩ := read
      rw [List.head?_cons, Option.map_some, if_neg (by simpa using label)] at read
      have ty : Takes (readTy : Read Scope Ty) [.word "i1"] NoStar (fun _ => True) .i1 fun _ => True :=
        @takes_ty _ _ .i1 ⟨by decide, by decide⟩
      have read : Reads _ ([t] ++ ⟨.word "null", start, stop⟩ :: ts) _ op left s' := read
      obtain ⟨_, -, read⟩ := ty.behind (by simp [first]) (by simp) trivial read
      obtain ⟨_, _, _, operand, -⟩ := reads_bind.mp read
      exact absurd operand not_reads_null
    | int width value =>
      change if width = 1 then Ty.i1 = .i1 else (Ty.width? .i1).isSome
      split <;> rfl
    | _ => trivial
  | _ => trivial

private theorem positions_readable {op op' : Operation} (known : op.FromText m f)
    (more : List Token) (tokens : ts.map (·.token) = argumentTokens m f op ++ more)
    (read : Reads (readOperation m'.symbol? op.opcode) ts s op' left s') :
    ∀ p ∈ op.positions, p.2.ReadableAt p.1 := by
  by_cases branch : ∃ cond thenDest elseDest, op = .condBr cond thenDest elseDest
  · obtain ⟨cond, thenDest, elseDest, rfl⟩ := branch
    exact List.forall_mem_singleton.mpr (condition_readable tokens read)
  · have other : ∀ cond thenDest elseDest, op ≠ .condBr cond thenDest elseDest :=
      fun cond thenDest elseDest same => branch ⟨cond, thenDest, elseDest, same⟩
    exact fun p mem => (known.constants other p mem).readable

/-- A result that is read has a type. -/
theorem reads_readResult {start : Nat} {opcode name : String} {op : Operation}
    {inst inst' : Instruction}
    (read : Reads (readResult start opcode op inst (some name)) ts s inst' left s') :
    op.resultTy ≠ .void := by
  intro void
  simp only [readResult, void] at read
  exact reads_refuseAt read

variable (known : f.FromText m) (globals : ∀ g ∈ m.globals, Unquoted g.name)
  (functions : ∀ g ∈ m.functions, g.FromText m) (resolved : Resolved m m' f)
include known globals functions resolved

private theorem instruction_readable (labels : g.blocks.map (·.name) = f.blocks.map (·.name))
    {inst inst' : Instruction} (mem : inst ∈ f.instructions) {first : Lexeme}
    (token : first.token = firstToken f inst) (same : ts.map (·.token) = laterTokens m f inst)
    (line : NewLine (rest.map (·.token)))
    (midway : Midway m f g (inst.result.toList ++ defs) (inst.mentions ++ uses) s)
    (read : Reads (readInstruction m'.symbol? first) (ts ++ rest) s inst' left s') :
    InstructionReadable m f inst := by
  obtain ⟨front, back, rfl, here, there⟩ := List.map_eq_append_iff.mp same
  rw [readInstruction_eq, List.append_assoc] at read
  obtain ⟨s₁, midway, read⟩ := (takes_opcode token).behind here trivial midway read
  dsimp only at read
  rw [opcode_not_tail, if_neg Bool.false_ne_true] at read
  have read := (reads_pure.mpr ⟨rfl, rfl, rfl⟩ : Reads _ _ _ _ _ _).bind_iff.mp read
  obtain ⟨arguments, trail, rfl, argument, trailing⟩ := List.map_eq_append_iff.mp there
  rw [List.append_assoc] at read
  have readable : ∀ p ∈ inst.op.positions, p.2.ReadableAt p.1 := by
    obtain ⟨_, _, _, operation, -⟩ := reads_bind.mp read
    refine positions_readable (known.ops inst mem) ((trail ++ rest).map (·.token)) ?_ operation
    rw [List.map_append, argument]
  have operation : inst.op.Readable m :=
    ⟨(known.ops inst mem).tys_inRange fun g among => (functions g among).ret, readable,
      (known.ops inst mem).shaped⟩
  have written := known.instructionKnown globals (fun g among => (functions g among).name) mem
  have behind : Over ((trail ++ rest).map (·.token)) := by
    rw [List.map_append, trailing]
    exact over_trailer inst line
  obtain ⟨s₂, midway, read⟩ := (takes_instructionOperation resolved labels written operation).behind
    argument behind midway read
  obtain ⟨s₃, -, read⟩ := (takes_trailer (alignOf inst.op) inst.dbg).behind trailing line midway read
  refine known.instructionReadable globals functions mem readable fun some => ?_
  obtain ⟨id, result⟩ := Option.isSome_iff_exists.mp some
  rw [result] at read
  have solid := reads_readResult read
  rwa [resultTy_aligned, Operation.resultTy_reread] at solid

/-- When all lines are read, each instruction of them is readable. -/
theorem lines_readable {target : List Block} {lines : List Line}
    (among : ∀ inst, .instruction inst ∈ lines → inst ∈ f.instructions) {current last : Nat}
    (tokens : ts.map (·.token) = linesTokens m f lines)
    (closes : (rest.map (·.token)).head? = some (.punct .rbrace))
    (filling : Filling m f g target current lines s)
    (rounds : Rounds pickLine (readLine m') current (ts ++ rest) s last left s') :
    ∀ inst, .instruction inst ∈ lines → InstructionReadable m f inst := by
  induction lines generalizing ts current s with
  | nil => exact fun _ none => absurd none List.not_mem_nil
  | cons line lines ih =>
    rw [linesTokens, List.flatMap_cons, List.cons_append] at tokens
    obtain ⟨t, ts, rfl, first, behind⟩ := List.map_eq_cons_iff.mp tokens
    obtain ⟨here, later, rfl, own, others⟩ := List.map_eq_append_iff.mp behind
    have below : ∀ inst, .instruction inst ∈ lines → inst ∈ f.instructions :=
      fun inst mem => among inst (.tail _ mem)
    have line_next : NewLine ((later ++ rest).map (·.token)) := by
      rw [List.map_append, others]
      exact newLine_lines lines closes
    rw [List.cons_append, List.append_assoc] at rounds
    cases rounds with
    | finish ends =>
      have stopped := ends t _ rfl
      cases line with
      | label name => simp [pickLine, first, Line.first] at stopped
      | instruction inst =>
        rcases firstToken_shape f inst with ⟨_, shape⟩ | ⟨_, shape⟩ <;>
          simp [pickLine, first, Line.first, shape] at stopped
    | round picked once more =>
      obtain ⟨-, same⟩ := pickLine_eq_some.mp picked
      rw [same] at once
      cases line with
      | label name =>
        obtain rfl := List.map_eq_nil_iff.mp own
        have label : readLine m' t current = pure (current + 1) := by
          rw [readLine, first]
          rfl
        rw [label] at once
        obtain ⟨rfl, rfl, rfl⟩ := reads_pure.mp once
        intro inst mem
        exact ih below others filling.label more inst (by simpa using mem)
      | instruction inst =>
        have pushed : readLine m' t current = readPushed m' t current := by
          rw [readLine, first]
          rcases firstToken_shape f inst with ⟨_, shape⟩ | ⟨_, shape⟩ <;> rw [Line.first, shape]
        rw [pushed] at once
        obtain ⟨_, _, _, instruction, -⟩ := reads_bind.mp once
        have midway : Midway m f { g with blocks := s.function.blocks }
            (inst.result.toList ++ lines.flatMap Line.results)
            (inst.mentions ++ lines.flatMap Line.mentions) s := filling.midway
        have readable := instruction_readable (g := { g with blocks := s.function.blocks }) known
          globals functions resolved filling.names (among inst List.mem_cons_self) first own line_next
          midway instruction
        obtain ⟨s₁, taken, filling⟩ := takes_line resolved readable first current lines here
          (later ++ rest) s own line_next filling
        obtain ⟨rfl, rfl, rfl⟩ := taken.unique once
        intro other mem
        rcases List.mem_cons.mp mem with same | mem
        · obtain rfl := Line.instruction.inj same
          exact readable
        · exact ih below others filling more other mem

private theorem body_readable {entry : Block} {blocks : List Block}
    (body : f.blocks = entry :: blocks) (solid : entry.insts ≠ []) {u : Unit}
    (tokens : ts.map (·.token) = bodyTokens m f entry blocks ++ [.punct .rbrace])
    (read : Reads (readBody m'.symbol?) (ts ++ rest) { function := f.opened m } u left s') :
    ∀ inst ∈ f.instructions, InstructionReadable m f inst := by
  obtain ⟨front, back, rfl, here, there⟩ := List.map_eq_append_iff.mp tokens
  obtain ⟨top, inner, rfl, label, lines⟩ := List.map_eq_append_iff.mp here
  obtain ⟨closing, rfl, closes⟩ := List.map_eq_singleton_iff.mp there
  rw [List.append_assoc, List.append_assoc, List.singleton_append,
    reads_readBody body resolved.labels solid label lines closes] at read
  obtain ⟨_, _, _, filled, -⟩ := reads_bind.mp read
  rw [fillBlocks_eq, reads_whileNext] at filled
  have same : ∀ inst, .instruction inst ∈ innerLines entry blocks ↔ inst ∈ f.instructions := by
    intro inst
    rw [Function.instructions, body, List.flatMap_cons]
    simp [innerLines]
  have each := lines_readable known globals functions resolved (fun inst => (same inst).mp) lines
    (by simp [closes]) (filling_opened body) filled
  exact fun inst mem => each inst ((same inst).mpr mem)

end

section
variable {m : Module} (distinct : m.symbolNames.Nodup) (globals : ∀ g ∈ m.globals, Unquoted g.name)
  (known : ∀ f ∈ m.functions, f.FromText m) (sound : ∀ f ∈ m.functions, functionDefects m f = [])
include distinct globals known sound

private theorem functions_readable {later done : List Function}
    (whole : m.functions = done ++ later)
    {bodies : List (FuncId × List Lexeme)} (kept : BodiesKept m (later.zipIdx done.length) bodies)
    {M : Module} (filled : bodies.foldlM fillFunction (partlyRead m done later) = .ok M) :
    ∀ f ∈ later, FunctionReadable m f := by
  induction later generalizing done bodies with
  | nil => exact List.forall_mem_nil _
  | cons f later ih =>
    have mem : f ∈ m.functions := by simp [whole]
    have next : m.functions = (done ++ [f]) ++ later := by simp [whole]
    have size : done.length + 1 = (done ++ [f]).length := by simp
    rw [List.zipIdx_cons, size] at kept
    by_cases declared : f.blocks = []
    · have none : f.instructions = [] := by rw [Function.instructions, declared]; rfl
      rw [partlyRead_declaration declared] at filled
      refine List.forall_mem_cons.mpr ⟨?_, ih next ((bodiesKept_declaration declared).mp kept) filled⟩
      refine (known f mem).functionReadable globals known (sound f mem) ?_ ?_
      · simp [none]
      · simp [none]
    · obtain ⟨body, bodies, rfl, here, others⟩ := (bodiesKept_definition declared).mp kept
      rw [List.foldlM_cons] at filled
      obtain ⟨m₁, one, filled⟩ := Failure.bind_eq_ok.mp filled
      obtain ⟨f', _, _, found, read, -⟩ := fillFunction_eq_ok.mp one
      obtain rfl := Option.some.inj ((function?_partlyRead m done later f).symm.trans found)
      obtain ⟨entry, blocks, inside, rest, blocks_eq, rfl, tokens⟩ := here
      have resolved := resolved_partlyRead distinct whole (known f mem).header (known f mem).labels
        declared
      have insts := body_readable (known f mem) globals known resolved blocks_eq
        (Function.sound_entry (sound f mem) entry (by rw [blocks_eq]; rfl)) tokens read
      have readable := (known f mem).functionReadable globals known (sound f mem)
        (fun inst among => (insts inst among).op.positions) fun inst among some => by
          obtain ⟨id, result⟩ := Option.isSome_iff_exists.mp some
          exact ((insts inst among).yields id result).2
      have opened := fillFunction_opened distinct whole readable declared
        ⟨entry, blocks, inside, rest, blocks_eq, rfl, tokens⟩
      obtain rfl := Except.ok.inj (opened.symm.trans one)
      exact List.forall_mem_cons.mpr ⟨readable, ih next others filled⟩

end
end Listing
open Listing

/-- A module is restorable if its text is loaded as a module of the same text. -/
theorem Module.restorable_of_loads {m : Module} {text : String} {again : Loaded} (flat : Flat m.name)
    (built : m.Built) (kept : m.TextKept) (known : ∀ f ∈ m.functions, f.FromText m)
    (valid : m.isValid = true) (written : moduleText m = some text)
    (loaded : load m.name text.toUTF8 = .ok again) (same : moduleText again.module = some text) :
    m.Restorable := by
  obtain ⟨M, read, -, rfl⟩ := load_eq_ok.mp loaded
  rw [parseBytes_written written] at read
  have lexable := lexable_of_reread kept flat built known written read same
  have named : ∀ node ∈ m.namedMetadata, Lexable node.2 := fun node mem =>
    lexable (.inl node) (List.mem_append_left _ (List.mem_map_of_mem mem))
  have nodes : ∀ node ∈ m.metadata, Lexable node.2 := fun node mem =>
    lexable (.inr node) (List.mem_append_right _ (List.mem_map_of_mem mem))
  have enterable := kept.enterable_of_lexable flat built known named nodes
  have readable : ∀ f ∈ m.functions, FunctionReadable m f := by
    obtain rfl := Option.some.inj (enterable.moduleText.symm.trans written)
    obtain ⟨ts, left, d, lexed, entities, filled⟩ := parse_eq_ok.mp read
    obtain ⟨ts', d', lexed', entities', module, bodies⟩ := entities_written enterable m.name
    obtain rfl := Except.ok.inj (lexed'.symm.trans lexed)
    obtain ⟨-, -, rfl⟩ := entities'.unique entities
    rw [module] at filled
    have none_done : m.functions = [] ++ m.functions := rfl
    exact functions_readable enterable.distinct (fun g mem => (kept.globals g mem).name) known
      (fun f mem => Module.functionDefects_of_valid valid mem) none_done bodies filled
  obtain ⟨addressed, steady⟩ :=
    ((enterable.printable readable).loads kept known valid written).mp ⟨_, loaded, same⟩
  refine ⟨fun f mem => ⟨steady f mem, fun inst among some => ?_, addressed f mem⟩, named, nodes⟩
  obtain ⟨id, result⟩ := Option.isSome_iff_exists.mp some
  exact (((readable f mem).insts inst among).yields id result).2

/-- A module that is loaded is restorable if and only if its text is loaded again as a module of the same
text. -/
theorem Module.restorable_iff {name : String} {bytes : ByteArray} {l : Loaded} (flat : Flat name)
    (loaded : load name bytes = .ok l) : l.module.Restorable ↔ ∃ text again,
      moduleText l.module = some text ∧ load name text.toUTF8 = .ok again ∧
        moduleText again.module = some text := by
  obtain ⟨built, rfl, kept, known, valid⟩ := load_read loaded
  constructor
  · intro ok
    obtain ⟨text, written, again, same⟩ := ok.loads flat built kept known valid
    exact ⟨text, _, written, again, same⟩
  · rintro ⟨text, again, written, reloaded, same⟩
    exact restorable_of_loads flat built kept known valid written reloaded same

end BlockTally
