import BlockTally.Proofs.Listing.Operations

/-! Reading the lines of a body: labels and instructions. Main statements: `takes_instruction`,
`takes_lines`. -/
namespace BlockTally.Listing
open Read

/-- What follows starts another line. -/
abbrev NewLine : List Token → Prop := fun r => ∀ t ∈ r.head?,
  t ≠ .punct .star ∧ t ≠ .attrRef ∧ t ≠ .punct .comma

private theorem over_of_newLine {r : List Token} (line : NewLine r) : Over r := by
  refine ⟨fun star => ?_, fun group => ?_, ?_⟩
  · exact (line _ star).1 rfl
  · exact (line _ group).2.1 rfl
  · rintro more rfl
    exact (line _ rfl).2.2 rfl

/-! The alignment and the debug location. -/

/-- What stands behind a comma after an operation. -/
inductive Note where
  | align (n : UInt32)
  | dbg (node : UInt32)

namespace Note

def tokens : Note → List Token
  | align n => [.word "align"] ++ [.int (Int64.ofNat n.toNat)]
  | dbg node => [.nodeName "dbg"] ++ [.nodeRef node]

/-- The name of an attachment. -/
def kind : Note → Option String
  | align _ => none
  | dbg _ => some "dbg"

def add (trailer : Trailer) : Note → Trailer
  | align n => { trailer with align := some n }
  | dbg node => { trailer with dbg := some node }

end Note

section
variable {σ : Type} {P : σ → Prop}

private theorem takes_note (note : Note) (trailer : Trailer) :
    Takes (do
      skip
      match note.kind with
      | none => return { trailer with align := some (← readWord32) }
      | some kind =>
        match ← readAttachment with
        | some node => return if kind = "dbg" then { trailer with dbg := some node } else trailer
        | none => return trailer : Read σ Trailer) note.tokens Anything P (note.add trailer) P := by
  cases note with
  | align n => exact takes_skip.next (takes_word32 n).returns
  | dbg node =>
    have attachment : Takes (readAttachment : Read σ (Option UInt32)) [.nodeRef node] Anything P
        (some node) P := by
      refine takes_peekToken ?_
      exact takes_skip.next takes_pure
    have noted : Takes (pure (Note.add trailer (.dbg node)) : Read σ Trailer) [] Anything P
        (Note.add trailer (.dbg node)) P := takes_pure
    refine takes_skip.next ?_
    exact attachment.next noted

theorem takes_trailer (align dbg : Option UInt32) :
    Takes (readTrailer : Read σ Trailer) (alignTokens align ++ dbgTokens dbg) NewLine P
      { align, dbg } P := by
  have tokens : alignTokens align ++ dbgTokens dbg =
      ((align.map Note.align).toList ++ (dbg.map Note.dbg).toList).flatMap fun note =>
        .punct .comma :: note.tokens := by
    cases align <;> cases dbg <;> rfl
  have result : ((align.map Note.align).toList ++ (dbg.map Note.dbg).toList).foldl Note.add {} =
      { align, dbg } := by
    cases align <;> cases dbg <;> rfl
  rw [tokens, ← result]
  refine takes_loop (fun _ => .punct .comma) Note.tokens (fun note _ => note.kind) Note.add
    (fun _ _ => P) Anything ?_ (fun note _ _ _ trailer _ => takes_note note trailer)
    (fun _ _ _ => trivial) ?_ _
  · intro note _ _ t ts more comma same
    have next : ts.head?.map Lexeme.token = (note.tokens ++ more).head? := by
      rw [← same, List.head?_map]
    cases note <;> simp [comma, next, Note.tokens, Note.kind]
  · intro _ t ts line
    have other : t.token ≠ .punct .comma := (line t.token rfl).2.2
    simp [other]

end

/-! Instructions. -/

def firstToken (f : Function) (inst : Instruction) : Token :=
  match inst.result with
  | some id => .localName (f.valueName id)
  | none => .word inst.op.opcode

def laterTokens (m : Module) (f : Function) (inst : Instruction) : List Token :=
  (if inst.result.isSome then [.punct .equals] ++ [.word inst.op.opcode] else []) ++
    (argumentTokens m f inst.op ++ (alignTokens (alignOf inst.op) ++ dbgTokens inst.dbg))

theorem instructionTokens_eq (m : Module) (f : Function) (inst : Instruction) :
    instructionTokens m f inst = firstToken f inst :: laterTokens m f inst := by
  rw [instructionTokens, operationTokens_eq]
  cases result : inst.result <;> simp [resultTokens, firstToken, laterTokens, result]

theorem firstToken_shape (f : Function) (inst : Instruction) :
    (∃ name, firstToken f inst = .localName name) ∨ ∃ text, firstToken f inst = .word text := by
  unfold firstToken
  split
  · exact .inl ⟨_, rfl⟩
  · exact .inr ⟨_, rfl⟩

private theorem newLine_instruction (f : Function) (inst : Instruction) (more : List Token) :
    NewLine (firstToken f inst :: more) := by
  intro t first
  obtain rfl : firstToken f inst = t := Option.some.inj first
  rcases firstToken_shape f inst with ⟨name, shape⟩ | ⟨word, shape⟩ <;> rw [shape] <;>
    exact ⟨nofun, nofun, nofun⟩

section
variable {m m' : Module} {f g : Function} {defs uses : List ValueId}

theorem takes_opcode {σ : Type} {P : σ → Prop} {inst : Instruction} {first : Lexeme}
    (token : first.token = firstToken f inst) :
    Takes (readOpcode first) (if inst.result.isSome then [.punct .equals] ++ [.word inst.op.opcode]
      else []) Anything P (inst.result.map f.valueName, inst.op.opcode) P := by
  unfold readOpcode
  rw [token]
  cases result : inst.result with
  | none =>
    have same : firstToken f inst = .word inst.op.opcode := by rw [firstToken, result]
    rw [same]
    exact takes_looked fun _ => takes_pure
  | some id =>
    have same : firstToken f inst = .localName (f.valueName id) := by rw [firstToken, result]
    rw [same]
    refine takes_peekToken ?_
    exact takes_skip.next takes_word.returns

/-- No opcode is a word on tail calls. -/
theorem opcode_not_tail (op : Operation) :
    ["tail", "musttail", "notail"].contains op.opcode = false := by
  cases op with
  | arith op => cases op <;> simp [Operation.opcode, Arith.mnemonic]
  | convert op => cases op <;> simp [Operation.opcode, Conversion.mnemonic]
  | _ => simp [Operation.opcode]

theorem resultTy_aligned (op : Operation) (align : Option UInt32) :
    (op.aligned align).resultTy = op.resultTy := by
  cases op <;> rfl

/-- The instruction can be written, and its result has the type with which it is read. -/
structure InstructionReadable (m : Module) (f : Function) (inst : Instruction) : Prop where
  known : InstructionKnown m f inst
  op : inst.op.Readable m
  yields : ∀ id, inst.result = some id →
    inst.op.writtenTy m = f.writtenTy m id ∧ inst.op.writtenTy m ≠ .void

theorem over_trailer (inst : Instruction) {r : List Token} (line : NewLine r) :
    Over (alignTokens (alignOf inst.op) ++ dbgTokens inst.dbg ++ r) := by
  have note : ∀ (t : Token) (more : List Token), t ≠ .punct .lbracket →
      Over (.punct .comma :: t :: more) := by
    intro t more other
    refine ⟨nofun, nofun, fun behind same => ?_⟩
    exact other (List.cons.inj (List.cons.inj same).2).1
  cases alignOf inst.op with
  | some n => exact note _ _ nofun
  | none =>
    cases inst.dbg with
    | some node => exact note _ _ nofun
    | none => exact over_of_newLine line

/-- The end of reading an instruction. -/
def readResult (start : Nat) (opcode : String) (op : Operation) (inst : Instruction) :
    Option String → Read Scope Instruction
  | none => return inst
  | some name =>
    if op.resultTy.isVoid then refuseAt (some start) (.noResult opcode)
    else return { inst with result := some (← defineLocal start name op.resultTy) }

theorem readInstruction_eq (m : Module) (first : Lexeme) : readInstruction m.symbol? first = (do
    let (result, text) ← readOpcode first
    let opcode ← if ["tail", "musttail", "notail"].contains text then
        word (.token (.word "call"))
      else pure text
    let op ← readOperation m.symbol? opcode
    let trailer ← readTrailer
    readResult first.start opcode op { op := op.aligned trailer.align, dbg := trailer.dbg }
      result) := rfl

variable (resolved : Resolved m m' f)
include resolved

private theorem takes_readResult {inst : Instruction} (start : Nat)
    (yields : ∀ id, inst.result = some id →
      inst.op.writtenTy m = f.writtenTy m id ∧ inst.op.writtenTy m ≠ .void) :
    Takes (readResult start inst.op.opcode ((inst.op.reread m f.number).aligned none)
        { op := inst.op.reread m f.number, dbg := inst.dbg } (inst.result.map f.valueName)) []
      Anything (Midway m f g (inst.result.toList ++ defs) (inst.result.toList ++ uses))
      (inst.reread m f.number) (Midway m f g defs uses) := by
  unfold readResult Instruction.reread
  cases result : inst.result with
  | none => exact takes_pure
  | some id =>
    obtain ⟨ty, some_ty⟩ := yields id result
    have solid : (inst.op.writtenTy m).isVoid = false := decide_eq_false some_ty
    simp only [Option.map_some, resultTy_aligned, Operation.resultTy_reread, solid,
      Bool.false_eq_true, if_false]
    rw [ty]
    exact (takes_result resolved start).returns

theorem takes_instructionOperation (labels : g.blocks.map (·.name) = f.blocks.map (·.name))
    {inst : Instruction} (known : InstructionKnown m f inst) (readable : inst.op.Readable m) :
    Takes (readOperation m'.symbol? inst.op.opcode) (argumentTokens m f inst.op) Over
      (Midway m f g (inst.result.toList ++ defs) (inst.mentions ++ uses))
      ((inst.op.reread m f.number).aligned none)
      (Midway m f g (inst.result.toList ++ defs) (inst.result.toList ++ uses)) := by
  rw [Instruction.mentions, List.append_assoc]
  exact takes_operation resolved labels known.toOperationKnown readable

theorem takes_instruction (labels : g.blocks.map (·.name) = f.blocks.map (·.name))
    {inst : Instruction} (ok : InstructionReadable m f inst) {first : Lexeme}
    (token : first.token = firstToken f inst) :
    Takes (readInstruction m'.symbol? first) (laterTokens m f inst) NewLine
      (Midway m f g (inst.result.toList ++ defs) (inst.mentions ++ uses))
      (inst.reread m f.number) (Midway m f g defs uses) := by
  obtain ⟨known, readable, yields⟩ := ok
  have result : Takes (readResult first.start inst.op.opcode
        ((inst.op.reread m f.number).aligned none)
        { op := ((inst.op.reread m f.number).aligned none).aligned (alignOf inst.op), dbg := inst.dbg }
        (inst.result.map f.valueName)) [] NewLine
      (Midway m f g (inst.result.toList ++ defs) (inst.result.toList ++ uses))
      (inst.reread m f.number) (Midway m f g defs uses) := by
    rw [aligned_reread]
    exact (takes_readResult resolved first.start yields).imp fun _ _ => trivial
  have behind : Takes (do
      let op ← readOperation m'.symbol? inst.op.opcode
      let trailer ← readTrailer
      readResult first.start inst.op.opcode op { op := op.aligned trailer.align, dbg := trailer.dbg }
        (inst.result.map f.valueName))
      (argumentTokens m f inst.op ++ (alignTokens (alignOf inst.op) ++ dbgTokens inst.dbg ++ []))
      NewLine (Midway m f g (inst.result.toList ++ defs) (inst.mentions ++ uses))
      (inst.reread m f.number) (Midway m f g defs uses) := by
    refine (takes_instructionOperation resolved labels known readable).bind
      ((takes_trailer (alignOf inst.op) inst.dbg).bind result ?_) ?_
    · exact fun r line => line
    · intro r line
      rw [List.append_nil]
      exact over_trailer inst line
  rw [List.append_nil] at behind
  rw [readInstruction_eq]
  refine (takes_opcode token).next ?_
  dsimp only
  rw [opcode_not_tail, if_neg Bool.false_ne_true]
  exact takes_pure.next behind

end

/-! Lines. -/

inductive Line where
  | label (name : String)
  | instruction (inst : Instruction)

namespace Line

def first (f : Function) : Line → Token
  | label name => .label name
  | instruction inst => firstToken f inst

def behind (m : Module) (f : Function) : Line → List Token
  | label _ => []
  | instruction inst => laterTokens m f inst

def results : Line → List ValueId
  | label _ => []
  | instruction inst => inst.result.toList

def mentions : Line → List ValueId
  | label _ => []
  | instruction inst => inst.mentions

def name? : Line → Option String
  | label name => some name
  | instruction _ => none

/-- The number of the block after the line. -/
def count (current : Nat) : Line → Nat
  | label _ => current + 1
  | instruction _ => current

end Line

def linesTokens (m : Module) (f : Function) (lines : List Line) : List Token :=
  lines.flatMap fun line => line.first f :: line.behind m f

/-- The blocks when the lines are read, each instruction into the block at which the labels are. -/
def placed (m : Module) (number : ValueId → ValueId) : List Line → Nat → List Block → List Block
  | [], _, blocks => blocks
  | .label _ :: lines, current, blocks => placed m number lines (current + 1) blocks
  | .instruction inst :: lines, current, blocks =>
    placed m number lines current (blocks.modify current (·.push (inst.reread m number)))

/-- The lines that are left turn the blocks of the scope into `target`. -/
structure Filling (m : Module) (f g : Function) (target : List Block) (current : Nat)
    (lines : List Line) (scope : Scope) : Prop where
  midway : Midway m f { g with blocks := scope.function.blocks } (lines.flatMap Line.results)
    (lines.flatMap Line.mentions) scope
  names : scope.function.blocks.map (·.name) = f.blocks.map (·.name)
  inside : current + (lines.filterMap Line.name?).length < scope.function.blocks.length
  placed : placed m f.number lines current scope.function.blocks = target

section
variable {m m' : Module} {f g : Function} {target : List Block}

private theorem map_name_modify (blocks : List Block) (k : Nat) (inst : Instruction) :
    (blocks.modify k (·.push inst)).map (·.name) = blocks.map (·.name) := by
  apply List.ext_getElem?
  intro n
  rw [List.getElem?_map, List.getElem?_map, List.getElem?_modify]
  by_cases same : k = n
  · simp [same, Function.comp_def, Block.push]
  · simp [same]

theorem takes_line (resolved : Resolved m m' f) {inst : Instruction}
    (ok : InstructionReadable m f inst) {first : Lexeme} (token : first.token = firstToken f inst)
    (current : Nat) (later : List Line) :
    Takes (do
        let inst ← readInstruction m'.symbol? first
        match (← state).function.push ⟨current⟩ inst with
        | none => outOfRange
        | some function =>
          update fun scope => { scope with function }
          return current) (laterTokens m f inst) NewLine
      (Filling m f g target current (.instruction inst :: later)) current
      (Filling m f g target current later) := by
  intro ts rest s same line filling
  obtain ⟨midway, names, inside, placed⟩ := filling
  simp only [List.filterMap_cons, Line.name?] at inside
  have labels : ({ g with blocks := s.function.blocks } : Function).blocks.map (·.name) =
      f.blocks.map (·.name) := names
  have reading : Takes (readInstruction m'.symbol? first) (laterTokens m f inst) NewLine
      (Midway m f { g with blocks := s.function.blocks }
        (inst.result.toList ++ later.flatMap Line.results)
        (inst.mentions ++ later.flatMap Line.mentions)) (inst.reread m f.number)
      (Midway m f { g with blocks := s.function.blocks } (later.flatMap Line.results)
        (later.flatMap Line.mentions)) := takes_instruction resolved labels ok token
  obtain ⟨t, read, midway'⟩ := reading ts rest s same line midway
  have blocks : t.function.blocks = s.function.blocks := by rw [midway'.frame]
  have bound : current < t.function.blocks.length := by
    rw [blocks]
    omega
  have pushed : t.function.push ⟨current⟩ (inst.reread m f.number) = some
      { t.function with
        blocks := t.function.blocks.modify current (·.push (inst.reread m f.number)) } := by
    rw [Function.push, Function.block?, List.getElem?_eq_getElem bound, Option.map_some,
      Function.setBlock, List.modify_eq_set_getElem?, List.getElem?_eq_getElem bound]
    rfl
  refine ⟨{ t with function := { t.function with
    blocks := t.function.blocks.modify current (·.push (inst.reread m f.number)) } }, ?_, ?_⟩
  · simp only [reads_bind, reads_state]
    refine ⟨_, _, _, read, _, _, _, ⟨rfl, rfl, rfl⟩, ?_⟩
    simp only [pushed, reads_bind, reads_update, reads_pure]
    exact ⟨(), _, _, ⟨rfl, rfl⟩, trivial, rfl, rfl⟩
  · obtain ⟨frame, past, done, split, results, entered⟩ := midway'
    refine ⟨⟨?_, past, done, split, results, entered.defined, entered.values, entered.pending⟩,
      ?_, ?_, ?_⟩
    · simp only
      rw [frame]
    · rw [map_name_modify, blocks, names]
    · simpa only [List.length_modify, blocks] using inside
    · rw [← placed, blocks]
      rfl

theorem Filling.label {name : String} {current : Nat} {later : List Line} {s : Scope}
    (filling : Filling m f g target current (.label name :: later) s) :
    Filling m f g target (current + 1) later s := by
  obtain ⟨midway, names, inside, placed⟩ := filling
  refine ⟨midway, names, ?_, placed⟩
  simp only [List.filterMap_cons, Line.name?, List.length_cons] at inside
  omega

theorem newLine_lines (later : List Line) {r : List Token} (closes : r.head? = some (.punct .rbrace)) :
    NewLine (linesTokens m f later ++ r) := by
  intro t first
  cases later with
  | nil =>
    rw [linesTokens, List.flatMap_nil, List.nil_append, closes] at first
    obtain rfl := Option.some.inj first
    exact ⟨nofun, nofun, nofun⟩
  | cons line later =>
    obtain rfl : line.first f = t := Option.some.inj first
    cases line with
    | label name => exact ⟨nofun, nofun, nofun⟩
    | instruction inst => exact newLine_instruction f inst [] _ rfl

theorem takes_lines (resolved : Resolved m m' f) {lines : List Line}
    (ok : ∀ inst, .instruction inst ∈ lines → InstructionReadable m f inst) :
    Takes (fillBlocks m'.symbol?) (linesTokens m f lines) (fun r => r.head? = some (.punct .rbrace))
      (Filling m f g target 0 lines) (lines.foldl Line.count 0)
      (Filling m f g target (lines.foldl Line.count 0) []) := by
  refine takes_loop (Line.first f) (Line.behind m f) (fun _ t => t) Line.count
    (Filling m f g target) NewLine ?_ ?_ ?_ ?_ 0
  · intro line _ _ t ts more token _
    refine if_neg ?_
    rw [token]
    cases line with
    | label => nofun
    | instruction inst =>
      rcases firstToken_shape f inst with ⟨name, shape⟩ | ⟨word, shape⟩ <;> rw [Line.first, shape] <;>
        nofun
  · intro line mem t token current later
    cases line with
    | label name =>
      rw [token]
      intro ts rest s same _ filling
      obtain rfl := List.map_eq_nil_iff.mp same
      exact ⟨s, reads_pure.mpr ⟨rfl, rfl, rfl⟩, filling.label⟩
    | instruction inst =>
      rw [token]
      rcases firstToken_shape f inst with ⟨name, shape⟩ | ⟨word, shape⟩
      · rw [Line.first, shape]
        exact takes_line resolved (ok inst mem) token current later
      · rw [Line.first, shape]
        exact takes_line resolved (ok inst mem) token current later
  · exact fun later r closes => newLine_lines later closes
  · intro _ t ts closes
    exact if_pos (Option.some.inj closes)

end

/-! The lines of a function. -/

/-- The lines after the label of the entry block, if it has one. -/
def innerLines (entry : Block) (blocks : List Block) : List Line :=
  entry.insts.map .instruction ++
    blocks.flatMap fun b => .label b.name :: b.insts.map .instruction

/-- A block with nothing in it yet. -/
def emptied (b : Block) : Block := { name := b.name }

section
variable {m m' : Module} {f g : Function} {number : ValueId → ValueId}

private theorem placed_instructions (insts : List Instruction) (later : List Line)
    (done : List Block) (b : Block) (more : List Block) :
    placed m number (insts.map .instruction ++ later) done.length (done ++ b :: more) =
      placed m number later done.length
        (done ++ { b with insts := b.insts ++ insts.map (·.reread m number) } :: more) := by
  induction insts generalizing b with
  | nil => simp
  | cons inst insts ih =>
    have here : (done ++ b :: more).modify done.length (·.push (inst.reread m number)) =
        done ++ b.push (inst.reread m number) :: more := by
      rw [List.modify_eq_take_cons_drop (by simp)]
      simp
    rw [List.map_cons, List.cons_append, placed, here, ih]
    simp [Block.push]

private theorem placed_blocks (blocks : List Block) {done : List Block} {current : Nat}
    (last : done.length = current + 1) :
    placed m number (blocks.flatMap fun b => .label b.name :: b.insts.map .instruction) current
      (done ++ blocks.map emptied) = done ++ blocks.map (·.reread m number) := by
  induction blocks generalizing done current with
  | nil => rfl
  | cons b blocks ih =>
    have next : (done ++ [b.reread m number]).length = current + 1 + 1 := by
      simp [last]
    have same : ({ emptied b with insts := (emptied b).insts ++ b.insts.map (·.reread m number) } :
        Block) = b.reread m number := by
      simp [emptied, Block.reread]
    have rest := ih next
    rw [List.append_assoc, List.append_assoc] at rest
    rw [List.flatMap_cons, List.cons_append, placed, ← last, List.map_cons, placed_instructions, same,
      last]
    exact rest

theorem placed_inner (entry : Block) (blocks : List Block) :
    placed m number (innerLines entry blocks) 0 ((entry :: blocks).map emptied) =
      (entry :: blocks).map (·.reread m number) := by
  have first : placed m number (innerLines entry blocks) 0 (emptied entry :: blocks.map emptied) = _ :=
    placed_instructions entry.insts _ [] (emptied entry) (blocks.map emptied)
  have same : ({ emptied entry with
      insts := (emptied entry).insts ++ entry.insts.map (·.reread m number) } : Block) =
      entry.reread m number := by
    simp [emptied, Block.reread]
  have rest : placed m number _ 0 ([entry.reread m number] ++ blocks.map emptied) = _ :=
    placed_blocks blocks rfl
  rw [same] at first
  exact first.trans rest

theorem mentions_inner {f : Function} {entry : Block} {blocks : List Block}
    (body : f.blocks = entry :: blocks) :
    (innerLines entry blocks).flatMap Line.mentions = f.mentions := by
  have one : ∀ insts : List Instruction,
      (insts.map Line.instruction).flatMap Line.mentions = insts.flatMap (·.mentions) := by
    intro insts
    rw [List.flatMap_map]
    rfl
  rw [Function.mentions, Function.instructions, body, innerLines, List.flatMap_append, one,
    List.flatMap_cons, List.flatMap_append, List.flatMap_assoc, List.flatMap_assoc]
  congr 2
  funext b
  rw [List.flatMap_cons, one]
  rfl

theorem results_inner {f : Function} {entry : Block} {blocks : List Block}
    (body : f.blocks = entry :: blocks) :
    (innerLines entry blocks).flatMap Line.results = f.results := by
  have one : ∀ insts : List Instruction,
      (insts.map Line.instruction).flatMap Line.results = insts.filterMap (·.result) := by
    intro insts
    induction insts with
    | nil => rfl
    | cons inst insts ih =>
      rw [List.map_cons, List.flatMap_cons, ih, Line.results, List.filterMap_cons]
      cases inst.result <;> rfl
  rw [Function.results, Function.instructions, body, innerLines, List.flatMap_append, one,
    List.flatMap_cons, List.filterMap_append, List.flatMap_assoc, List.filterMap_flatMap]
  congr 2
  funext b
  rw [List.flatMap_cons, one]
  rfl

theorem names_inner (entry : Block) (blocks : List Block) :
    (innerLines entry blocks).filterMap Line.name? = blocks.map (·.name) := by
  have none_named : ∀ insts : List Instruction,
      (insts.map Line.instruction).filterMap Line.name? = [] := by
    intro insts
    rw [List.filterMap_map]
    exact List.filterMap_eq_nil_iff.mpr fun _ _ => rfl
  rw [innerLines, List.filterMap_append, none_named, List.nil_append]
  induction blocks with
  | nil => rfl
  | cons b blocks ih =>
    rw [List.flatMap_cons, List.filterMap_append, List.filterMap_cons, none_named, ih]
    rfl

end

/-! Labels are found among the tokens of a body, which has no braces inside. -/

/-- The token is no label and no brace. -/
def isInner : Token → Bool
  | .label _ | .punct .lbrace | .punct .rbrace => false
  | _ => true

@[simp] theorem isInner_word (text : String) : isInner (.word text) = true := by
  simp [isInner]

@[simp] theorem isInner_localName (name : String) : isInner (.localName name) = true := by
  simp [isInner]

@[simp] theorem isInner_punct (p : Punct) :
    isInner (.punct p) = (p != .lbrace && p != .rbrace) := by
  cases p <;> rfl

section
variable (m : Module) (f : Function)

@[simp] theorem inner_operand (o : Operand) : isInner (operandToken m f o) = true := by
  rcases operandToken_shape m f o with ⟨_, same⟩ | ⟨_, same⟩ | ⟨_, same⟩ | ⟨_, same, -⟩ <;> rw [same] <;>
    rfl

private theorem inner_separated {parts : List (List Token)}
    (each : ∀ part ∈ parts, part.all isInner = true) :
    (separated parts).all isInner = true := by
  cases parts with
  | nil => rfl
  | cons first rest =>
    rw [separated, List.all_append, each first List.mem_cons_self, Bool.true_and, List.all_flatMap,
      List.all_eq_true]
    intro part mem
    exact each part (List.mem_cons_of_mem _ mem)

private theorem inner_callSite (site : CallSite) :
    (callSiteTokens m f site).all isInner = true := by
  have args : (separated (site.args.map (argTokens m f))).all isInner = true := by
    refine inner_separated fun part mem => ?_
    obtain ⟨arg, -, rfl⟩ := List.mem_map.mp mem
    simp [argTokens]
  have callee : (calleeTyTokens m site).all isInner = true := by
    unfold calleeTyTokens
    cases variadicCallee? m site with
    | none => rfl
    | some callee =>
      have params : (separated (callee.signature.params.map (fun ty => [.word ty.text]) ++
          if callee.signature.variadic then [[.punct .ellipsis]] else [])).all isInner = true := by
        refine inner_separated fun part mem => ?_
        rcases List.mem_append.mp mem with param | last
        · obtain ⟨ty, -, rfl⟩ := List.mem_map.mp param
          rfl
        · split at last
          · rw [List.mem_singleton.mp last]
            rfl
          · cases last
      simp [signatureTokens, params]
  simp [callSiteTokens, callee, args]

private theorem inner_arguments (op : Operation) : (argumentTokens m f op).all isInner = true := by
  cases op with
  | phi ty incoming =>
    have edges : (separated (incoming.map (edgeTokens m f))).all isInner = true := by
      refine inner_separated fun part mem => ?_
      obtain ⟨edge, -, rfl⟩ := List.mem_map.mp mem
      simp [edgeTokens]
    simp [argumentTokens, edges]
  | arith op ty lhs rhs nuw nsw =>
    have flags : (flagTokens nuw nsw).all isInner = true := by
      cases nuw <;> cases nsw <;> rfl
    simp [argumentTokens, flags, pairTokens]
  | ret ty value => cases value <;> simp [argumentTokens]
  | _ => simp [argumentTokens, pairTokens, labelTokens, inner_callSite]

private theorem inner_first (inst : Instruction) : isInner (firstToken f inst) = true := by
  rcases firstToken_shape f inst with ⟨_, shape⟩ | ⟨_, shape⟩ <;> rw [shape] <;> rfl

private theorem inner_later (inst : Instruction) : (laterTokens m f inst).all isInner = true := by
  have notes : (alignTokens (alignOf inst.op) ++ dbgTokens inst.dbg).all isInner = true := by
    cases alignOf inst.op <;> cases inst.dbg <;> rfl
  have named : (if inst.result.isSome then [Token.punct .equals] ++ [.word inst.op.opcode]
      else []).all isInner = true := by
    split <;> rfl
  rw [laterTokens, List.all_append, List.all_append, named, inner_arguments, notes]
  rfl

theorem linesTokens_flat (lines : List Line) :
    ∀ t ∈ linesTokens m f lines, t ≠ .punct .lbrace ∧ t ≠ .punct .rbrace := by
  intro t mem
  obtain ⟨line, -, mem⟩ := List.mem_flatMap.mp mem
  cases line with
  | label name =>
    rw [List.mem_singleton.mp mem]
    exact ⟨nofun, nofun⟩
  | instruction inst =>
    have inner : isInner t = true := by
      rcases List.mem_cons.mp mem with rfl | mem
      · exact inner_first f inst
      · exact List.all_eq_true.mp (inner_later m f inst) t mem
    constructor
    · rintro rfl
      cases inner
    · rintro rfl
      cases inner

/-- The label that a token is. -/
def labelOf? : Token → Option String
  | .label name => some name
  | _ => none

theorem map_fst_labels {ts rest : List Lexeme} {closing : Lexeme}
    (flat : ∀ t ∈ ts, t.token ≠ .punct .rbrace) (closes : closing.token = .punct .rbrace) :
    (labels (ts ++ closing :: rest)).map (·.1) = (ts.map (·.token)).filterMap labelOf? := by
  have front : (ts ++ closing :: rest).takeWhile (·.token != .punct .rbrace) = ts := by
    rw [List.takeWhile_append_of_pos (by simpa using flat)]
    simp [closes]
  rw [labels, front, List.map_filterMap, List.filterMap_map]
  refine List.filterMap_congr fun t _ => ?_
  simp only [Function.comp_apply]
  cases t.token <;> rfl

theorem filterMap_labelOf? (lines : List Line) :
    (linesTokens m f lines).filterMap labelOf? = lines.filterMap Line.name? := by
  have none_inner : ∀ toks : List Token, toks.all isInner = true → toks.filterMap labelOf? = [] := by
    intro toks inner
    refine List.filterMap_eq_nil_iff.mpr fun t mem => ?_
    have known := List.all_eq_true.mp inner t mem
    cases t with
    | label => cases known
    | _ => rfl
  have one : ∀ line : Line, (line.first f :: line.behind m f).filterMap labelOf? =
      line.name?.toList := by
    intro line
    cases line with
    | label name => rfl
    | instruction inst =>
      have all : (firstToken f inst :: laterTokens m f inst).all isInner = true := by
        rw [List.all_cons, inner_first, inner_later]
        rfl
      exact none_inner _ all
  induction lines with
  | nil => rfl
  | cons line lines ih =>
    rw [linesTokens, List.flatMap_cons, List.filterMap_append, ← linesTokens, ih, one,
      List.filterMap_cons]
    cases line.name? <;> rfl

end

end BlockTally.Listing
