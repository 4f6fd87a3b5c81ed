import BlockTally.Proofs.Listing.Points

/-! Where the readers complain: at the word that they complain about, or at the token behind an opcode
or a comparison. Main statement: `parseTokens_points`. -/
namespace BlockTally.Listing
open Read Text

section
variable {σ : Type} {all ts : List Lexeme} {I : σ → Prop}

instance : Points all I (readTy : Read σ Ty) :=
  .place fun start spot => .peekToken fun ts s inside holds => by
    have : Points all I (refuseAt start .pointerToVoid : Read σ Ty) := .refuseAt (.plain spot rfl)
    split
    · rename_i text next
      split
      · exact .refuse (.next inside next rfl rfl)
      · exact Points.here inside holds
    · exact .refuse (.plain (.head inside) rfl)
    · exact .refuse (.plain (.head inside) rfl)
    · exact .refuse (.plain (.head inside) rfl)
    · exact Points.here inside holds

/-- A constant that is not taken is complained about by its word, if a word is named. -/
theorem constantOf?_error {ty : Ty} {token : Token} {cause : Cause}
    (refused : constantOf? ty token = some (.error cause)) :
    cause.named? = none ∨ cause.named? = some token ∧ cause.isLate = false := by
  cases token with
  | int value =>
    cases ty with
    | int width => simp [constantOf?] at refused
    | void => cases refused; exact .inl rfl
    | ptr => cases refused; exact .inl rfl
  | word text =>
    unfold constantOf? at refused
    dsimp only at refused
    repeat' split at refused
    all_goals cases refused
    · exact .inl rfl
    · exact .inr ⟨rfl, rfl⟩
  | _ => cases refused

instance (ty : Ty) : Points all I (readConstant? ty : Read σ (Option Constant)) :=
  .peekToken fun ts s inside holds => by
    split
    · exact Points.here inside holds
    · exact Points.here inside holds
    · rename_i cause refused
      obtain ⟨token, next, known⟩ := Option.bind_eq_some_iff.mp refused
      rcases constantOf?_error known with unnamed | ⟨named, early⟩
      · exact .refuse (.plain (.head inside) unnamed)
      · exact .refuse (.next inside next named early)

instance : Points all I (readWord32 : Read σ UInt32) :=
  .demand fun t value mem _ => by
    split
    · infer_instance
    · exact .refuseAt (.plain (.of_mem mem) rfl)

instance : Points all I (skipAttributes : Read σ Unit) :=
  .loop fun attr _ => by cases attr <;> infer_instance

end

/-! Bodies. -/

/-- The values that wait are names among the tokens, and their places are known. -/
def Noted (all : List Lexeme) (scope : Scope) : Prop :=
  ∀ p ∈ scope.pending, ∃ t ∈ all, t.token = .localName p.1 ∧ t.start = p.2

section
variable {all ts : List Lexeme} {s : Scope} (m : Module) (ty : Ty)

private theorem addLocal_points {start : Nat} (spot : Spot all (some start)) (name : String) :
    Points all (Noted all) (addLocal start name ty) :=
  Points.bind inferInstance fun scope => by
    split
    · exact Points.bind (.update fun _ noted => noted) inferInstance
    · exact .refuseAt (.plain spot rfl)

private theorem defineLocal_points {start : Nat} (spot : Spot all (some start)) (name : String) :
    Points all (Noted all) (defineLocal start name ty) :=
  Points.bind inferInstance fun scope => by
    split
    · exact addLocal_points ty spot name
    · split
      · exact .refuseAt (.plain spot rfl)
      · split
        · infer_instance
        · exact Points.bind (.update fun _ noted p mem => noted p (List.mem_of_mem_filter mem))
            inferInstance

private theorem noted_nil (all : List Lexeme) (f : Function) : Noted all { function := f } := by
  simp [Noted]

theorem Noted.wait {scope : Scope} {t : Lexeme} {name : String} (noted : Noted all scope)
    (mem : t ∈ all) (token : t.token = .localName name) :
    Noted all { scope with pending := scope.pending ++ [(name, t.start)] } := by
  intro p among
  rcases List.mem_append.mp among with old | new
  · exact noted p old
  · obtain rfl := List.mem_singleton.mp new
    exact ⟨t, mem, token, rfl⟩

instance : Points all (Noted all) (readOperand m.symbol? ty) :=
  .peek fun next among => by
    split
    · rename_i name start stop
      have mem := among _ rfl
      refine Points.bind inferInstance fun _ => Points.bind inferInstance fun scope => ?_
      split
      · infer_instance
      · refine Points.bind (addLocal_points ty (.of_mem mem) name) fun id => ?_
        exact Points.bind (.update fun _ noted => noted.wait mem rfl) inferInstance
    · rename_i name start stop
      refine Points.bind inferInstance fun _ => ?_
      split
      · infer_instance
      · infer_instance
      · exact .refuseAt (.word (among _ rfl) rfl rfl)
    · refine Points.bind inferInstance fun c => ?_
      split <;> infer_instance

private theorem localName_of_eq_some {token : Token} {name : String}
    (known : (match token with | .localName name => some name | _ => none) = some name) :
    token = .localName name := by
  split at known <;> cases known
  rfl

instance : Points all (Noted all) readBlock :=
  .demand fun t name mem known => Points.bind inferInstance fun scope => by
    split
    · infer_instance
    · exact .refuseAt (.word mem (by rw [localName_of_eq_some known]; rfl) rfl)

variable {σ : Type} {I : σ → Prop}

instance : Points all I (expectComma : Read σ Unit) := by unfold expectComma; infer_instance

instance (text : String) : Points all I (expectWord text : Read σ Unit) := by
  unfold expectWord; infer_instance

instance : Points all (Noted all) readLabel := by unfold readLabel; infer_instance

instance : Points all (Noted all) (readPointer m.symbol?) := by unfold readPointer; infer_instance

instance : Points all (Noted all) (readArg m.symbol?) := by unfold readArg; infer_instance

instance : Points all (Noted all) (readArgs m.symbol?) := by unfold readArgs; infer_instance

instance : Points all (Noted all) (readSite m ty) :=
  Points.bind inferInstance fun next => by split <;> infer_instance

instance : Points all (Noted all) (readCallSite m.symbol?) := by
  rw [readCallSite_eq]
  infer_instance

instance : Points all (Noted all) (readEdge m.symbol? ty) := by unfold readEdge; infer_instance

instance : Points all I (readFlags : Read σ (Bool × Bool)) :=
  .loop fun text flags => by cases flags; infer_instance

instance (op : Arith) : Points all (Noted all) (readArith m.symbol? op) := by
  unfold readArith; infer_instance

instance (op : Conversion) : Points all (Noted all) (readConversion m.symbol? op) := by
  unfold readConversion; infer_instance

/-- The comparison is taken when it is found to be unknown. -/
instance : Points all (Noted all) (readComparison m.symbol?) where
  here inside holds := by
    refine PointsAt.bind (Points.here inside holds) fun text rest s read kept => ?_
    obtain ⟨t, rfl, token, rfl⟩ := reads_word.mp read
    have behind : Behind all rest (.word text) := token ▸ .of_suffix inside
    split
    · exact .refuse (.behind behind rfl rfl)
    · exact Points.here ((List.suffix_cons t rest).trans inside) kept

instance : Points all (Noted all) (readLoad m.symbol?) := by unfold readLoad; infer_instance

instance : Points all (Noted all) (readStore m.symbol?) := by unfold readStore; infer_instance

instance : Points all (Noted all) (readPhi m.symbol?) := by unfold readPhi; infer_instance

instance : Points all (Noted all) (readInvoke m.symbol?) := by unfold readInvoke; infer_instance

instance : Points all (Noted all) (readBranch m.symbol?) := by unfold readBranch; infer_instance

instance : Points all (Noted all) (readReturn m.symbol?) := by unfold readReturn; infer_instance

/-- So is an opcode. -/
theorem readOperation_points {opcode : String} (behind : Behind all ts (.word opcode))
    (inside : ts <:+ all) (noted : Noted all s) :
    PointsAt all (Noted all) (readOperation m.symbol? opcode) ts s := by
  unfold readOperation
  split
  · exact Points.here inside noted
  · exact Points.here inside noted
  · split
    all_goals first | exact Points.here inside noted | exact .refuse (.behind behind rfl rfl)

instance : Points all I (readAttachment : Read σ (Option UInt32)) :=
  Points.bind inferInstance fun next => Points.bind inferInstance fun _ => by
    have : Points all I (refuse .expectedNode : Read σ (Option UInt32)) := .refuse rfl
    split <;> infer_instance

instance : Points all I (readTrailer : Read σ Trailer) :=
  .loop fun kind trailer => Points.bind inferInstance fun _ => by
    cases kind with
    | none => infer_instance
    | some kind => exact Points.bind inferInstance fun node => by split <;> infer_instance

variable {first : Lexeme}

private theorem readOpcode_points (mem : first ∈ all) :
    Points all I (readOpcode first : Read σ _) :=
  Points.bind inferInstance fun next => by
    split
    · infer_instance
    · infer_instance
    · exact .refuseAt (.plain (.of_mem mem) rfl)

private theorem readOpcode_behind {found : Option String × String} {rest : List Lexeme} {s s' : σ}
    (inside : first :: ts <:+ all) (whole : Reads (readOpcode first) ts s found rest s') :
    Behind all rest (.word found.2) := by
  obtain ⟨_, _, _, peeked, read⟩ := reads_bind.mp whole
  obtain ⟨rfl, rfl, rfl⟩ := reads_peekToken.mp peeked
  split at read
  · simp only [reads_bind, reads_skip, reads_pure] at read
    obtain ⟨_, _, _, ⟨rfl, rfl⟩, _, _, _, mnemonic, rfl, rfl, rfl⟩ := read
    obtain ⟨t, tail, token, rfl⟩ := reads_word.mp mnemonic
    have front : t :: rest <:+ all := tail ▸ (List.tail_suffix _).trans
      ((List.suffix_cons first _).trans inside)
    exact token ▸ .of_suffix front
  · rename_i token
    obtain ⟨rfl, rfl, rfl⟩ := reads_pure.mp read
    exact token ▸ .of_suffix inside
  · exact absurd read reads_refuseAt

private theorem readResult_points (mem : first ∈ all) (opcode : String) (op : Operation)
    (inst : Instruction) (result : Option String) :
    Points all (Noted all) (readResult first.start opcode op inst result) := by
  cases result with
  | none => exact inferInstanceAs (Points _ _ (pure inst))
  | some name =>
    have refused : Points all (Noted all) (refuseAt (some first.start) (.noResult opcode)) :=
      .refuseAt (α := Instruction) (.plain (.of_mem mem) rfl)
    have defined := defineLocal_points op.resultTy (.of_mem mem) name
    unfold readResult
    infer_instance

private theorem readBehind_points {result : Option String} {opcode : String} (mem : first ∈ all)
    (behind : Behind all ts (.word opcode)) (inside : ts <:+ all) (noted : Noted all s) :
    PointsAt all (Noted all) (readBehind m first result opcode) ts s :=
  (readOperation_points m behind inside noted).bind fun op _ _ operation kept =>
    (Points.bind inferInstance fun _ => readResult_points mem opcode op _ result).here
      (operation.suffix.trans inside) kept

private theorem readInstruction_points (inside : first :: ts <:+ all) (noted : Noted all s) :
    PointsAt all (Noted all) (readInstruction m.symbol? first) ts s := by
  have mem : first ∈ all := inside.subset List.mem_cons_self
  have later : ts <:+ all := (List.suffix_cons first ts).trans inside
  rw [readInstruction_eq]
  refine ((readOpcode_points mem).here later noted).bind fun found rest s' opening kept => ?_
  have behind := readOpcode_behind inside opening
  have left := opening.suffix.trans later
  obtain ⟨result, text⟩ := found
  dsimp only
  split
  · refine PointsAt.bind (Points.here left kept) fun opcode rest s' call kept => ?_
    obtain ⟨t, rfl, token, rfl⟩ := reads_word.mp call
    exact readBehind_points m mem (token ▸ .of_suffix left) ((List.suffix_cons t rest).trans left) kept
  · refine PointsAt.bind (Points.here left kept) fun opcode rest s' plain kept => ?_
    obtain ⟨rfl, rfl, rfl⟩ := reads_pure.mp plain
    exact readBehind_points m mem behind left kept

private theorem mem_labels {p : String × Nat} (mem : p ∈ labels ts) : ∃ t ∈ ts, t.start = p.2 := by
  obtain ⟨t, among, known⟩ := List.mem_filterMap.mp mem
  refine ⟨t, (List.takeWhile_subset _) among, ?_⟩
  split at known <;> cases known
  rfl

private theorem addLabels_points {found : List (String × Nat)}
    (spots : ∀ p ∈ found, Spot all (some p.2)) :
    Points all (Noted all) (addLabels found) := by
  induction found with
  | nil => exact inferInstanceAs (Points _ _ (pure ()))
  | cons label found ih =>
    have spot := spots label List.mem_cons_self
    have refused : Points all (Noted all) (refuseAt (some label.2) (.duplicateLabel label.1)) :=
      .refuseAt (α := Unit) (.plain spot rfl)
    have added : Points all (Noted all)
        (update fun scope => { scope with function := (scope.function.addBlock label.1).2 }) :=
      .update fun _ noted => noted
    have rest := ih fun p mem => spots p (List.mem_cons_of_mem _ mem)
    refine Points.bind inferInstance fun scope => ?_
    split <;> infer_instance

private theorem readPushed_points {current : Nat} (inside : first :: ts <:+ all)
    (noted : Noted all s) :
    PointsAt all (Noted all) (readPushed m first current) ts s := by
  refine (readInstruction_points m inside noted).bind fun inst rest s' read kept => ?_
  have left := read.suffix.trans ((List.suffix_cons first ts).trans inside)
  refine (?_ : Points all (Noted all) _).here left kept
  refine Points.bind inferInstance fun scope => ?_
  split
  · infer_instance
  · exact Points.bind (.update fun _ noted => noted) inferInstance

instance : Points all (Noted all) (fillBlocks m.symbol?) where
  here inside noted := by
    rw [fillBlocks_eq]
    refine .loop inside noted fun current t left s first inside noted picked => ?_
    obtain ⟨-, rfl⟩ := pickLine_eq_some.mp picked
    rcases readLine_cases m first current with ⟨-, same⟩ | ⟨-, same⟩
    · rw [same]
      exact Points.here ((List.suffix_cons first left).trans inside) noted
    · rw [same]
      exact readPushed_points m inside noted

/-- The first value that still waits is complained about where it was used first. -/
instance : Points all (Noted all) readSettled :=
  .state fun scope noted => by
    split
    · infer_instance
    · rename_i name start first
      obtain ⟨t, mem, token, rfl⟩ := noted (name, start) (List.mem_of_mem_head? first)
      exact .refuseAt (.word mem (by rw [token]; rfl) rfl)

instance : Points all (Noted all) (readLines m) := by
  have refused : Points all (Noted all) (refuse .unterminatedBody : Read Scope Unit) := .refuse rfl
  rw [readLines_eq]
  infer_instance

/-- All labels stand among the tokens. -/
theorem labels_points {f : Unit → Read Scope Unit} (more : ∀ u, Points all (Noted all) (f u)) :
    Points all (Noted all) (ahead >>= fun found => addLabels (labels found) >>= f) :=
  .known (V := fun found => ∀ p ∈ labels found, Spot all (some p.2))
    (fun inside _ read p mem => by
      obtain ⟨rfl, -, -⟩ := reads_ahead.mp read
      obtain ⟨t, among, start⟩ := mem_labels mem
      exact start ▸ .of_mem (inside.subset among))
    fun _ spots => (addLabels_points spots).bind more

instance : Points all (Noted all) (readBody m.symbol?) := by
  rw [readBody_announced]
  refine Points.bind inferInstance fun next => ?_
  rcases readAnnounced_cases m next with ⟨-, same⟩ | ⟨-, same⟩
  · rw [same]
    exact labels_points inferInstance
  · rw [same]
    exact Points.bind (.update fun _ noted => noted) fun _ => labels_points inferInstance

end

/-! The top level, where the state is not needed to find the place. -/

abbrev Anyhow (_ : Draft) : Prop := True

section
variable {σ : Type} {all : List Lexeme} {I : σ → Prop} (src : List Char)

instance (ts : List Lexeme) : Points all I (readSpan src ts : Read σ String) := by
  unfold readSpan; infer_instance

instance (offset : Nat) : Points all I (restOfLine src offset : Read σ (List Lexeme)) := by
  unfold restOfLine; infer_instance

instance (offset : Nat) : Points all I (lineText src offset : Read σ String) := by
  unfold lineText; infer_instance

instance (word : String) (run : List Lexeme) (words : Words) :
    Points all I (addWord src word run words : Read σ Words) := by
  unfold addWord
  split <;> infer_instance

instance (isLast : String → Bool) (numbered : Bool) :
    Points all I (readWords src isLast numbered : Read σ Words) :=
  .loop fun word words => by cases word; infer_instance

instance (f : Function) : Points all I (readParam src f : Read σ Function) :=
  Points.bind inferInstance fun dots => by
    split
    · infer_instance
    · refine Points.bind inferInstance fun ty => Points.bind inferInstance fun took =>
        Points.bind inferInstance fun attrs => .peek fun next among => ?_
      split
      · rename_i name start stop
        have refused : Points all I (refuseAt (some start) (.duplicateParameter name)) :=
          .refuseAt (α := Function) (.plain (.of_mem (among _ rfl)) rfl)
        infer_instance
      · infer_instance

instance (f : Function) : Points all I (readSlots src f : Read σ Function) := by
  unfold readSlots; infer_instance

instance (words : Words) : Points all I (readSignature src words : Read σ Function) := by
  rw [readSignature_eq]
  infer_instance

instance : Points all I (readHeader src : Read σ Function) :=
  Points.bind inferInstance fun words => Points.bind inferInstance fun next => by
    split <;> infer_instance

section
variable {first : Lexeme} (mem : first ∈ all)
include mem

private theorem enter_points {α : Type} (edit : Edit Module EditError α) :
    Points all Anyhow (enter first.start edit) :=
  Points.bind inferInstance fun draft => by
    split
    · exact Points.bind (.update fun _ _ => trivial) inferInstance
    · exact .refuseAt (.plain (.of_mem mem) rfl)
    · infer_instance

private theorem readDeclaration_points : Points all Anyhow (readDeclaration src first) := by
  refine Points.bind inferInstance fun read => ?_
  obtain ⟨f, header⟩ := read
  dsimp only
  split
  · exact Points.bind inferInstance fun _ => (enter_points mem _).bind inferInstance
  · exact Points.bind inferInstance fun _ => (enter_points mem _).bind inferInstance

private theorem readDefinition_points : Points all Anyhow (readDefinition src first.start) := by
  have refused : Points all Anyhow (refuseAt (some first.start) .noBody) :=
    .refuseAt (α := Unit) (.plain (.of_mem mem) rfl)
  have body : Points all Anyhow
      (closeGroup .lbrace .rbrace (some first.start) .unterminatedBody) :=
    .closeGroup (.plain (.of_mem mem) rfl)
  have entered : ∀ f, Points all Anyhow (enter first.start (Register.addFunction f)) :=
    fun f => enter_points mem _
  have kept : ∀ f, Points all Anyhow (update f) := fun f => .update fun _ _ => trivial
  refine Points.bind inferInstance fun f => Points.bind inferInstance fun took =>
    Points.bind inferInstance fun trail => Points.bind inferInstance fun opened => ?_
  dsimp only
  infer_instance

private theorem readGlobal_points (name : String) :
    Points all Anyhow (readGlobal src first.start name) := by
  have entered : ∀ g, Points all Anyhow (enter first.start (Register.addGlobal g)) :=
    fun g => enter_points mem _
  refine Points.bind inferInstance fun _ => Points.bind inferInstance fun words =>
    Points.bind inferInstance fun last => Points.bind inferInstance fun ty =>
      Points.bind inferInstance fun initial => Points.bind inferInstance fun align => ?_
  dsimp only
  infer_instance

end

instance (f : Module → Module) : Points all Anyhow (alter f : Read Draft Unit) :=
  .update fun _ _ => trivial

instance : Points all I (readQuoted : Read σ String) := by unfold readQuoted; infer_instance

private theorem word_of_eq_some {token : Token} {text : String}
    (known : (match token with | .word text => some text | _ => none) = some text) :
    token = .word text := by
  split at known <;> cases known
  rfl

instance : Points all Anyhow (readTarget : Read Draft Unit) :=
  .demand fun t property mem known => Points.bind inferInstance fun _ =>
    Points.bind inferInstance fun text => by
      split
      · infer_instance
      · infer_instance
      · exact .refuseAt (.word mem (by rw [word_of_eq_some known]; rfl) rfl)

instance (first : Lexeme) : Points all I (readNode src first : Read σ String) := by
  unfold readNode; infer_instance

private theorem readEntity_points {first : Lexeme} (mem : first ∈ all) :
    Points all Anyhow (readEntity src first) := by
  unfold readEntity
  split
  · infer_instance
  · infer_instance
  · exact readDeclaration_points src mem
  · exact readDefinition_points src mem
  · infer_instance
  · rename_i token
    exact .refuseAt (.word mem (by rw [token]; rfl) rfl)
  · exact readGlobal_points src mem _
  · infer_instance
  · infer_instance
  · infer_instance
  · exact .refuseAt (.plain (.of_mem mem) rfl)

instance : Points all Anyhow (readEntities src : Read Draft Unit) where
  here inside holds := by
    refine .loop inside holds fun _ t left s first inside _ picked => ?_
    obtain rfl := Option.some.inj picked
    exact (readEntity_points src (inside.subset List.mem_cons_self)).here
      ((List.suffix_cons t left).trans inside) trivial

end

/-! Whole texts. -/

section
variable {src : List Char} {ts : List Lexeme} {c : Complaint} {m : Module}

private theorem fillFunction_points {b : FuncId × List Lexeme} (inside : b.2 <:+ ts)
    (failed : fillFunction m b = .error (.refused c)) : Pointed ts c := by
  obtain ⟨id, body⟩ := b
  rcases fillFunction_error failed with ⟨⟨⟩, -⟩ | ⟨f, -, reading⟩
  exact (Points.here inside (noted_nil ts f)).points reading

private theorem fillFunctions_points {bodies : List (FuncId × List Lexeme)}
    (inside : ∀ b ∈ bodies, b.2 <:+ ts)
    (failed : bodies.foldlM fillFunction m = .error (.refused c)) : Pointed ts c := by
  induction bodies generalizing m with
  | nil => cases failed
  | cons b bodies ih =>
    rw [List.foldlM_cons] at failed
    rcases Failure.bind_eq_error.mp failed with first | ⟨m₁, -, more⟩
    · exact fillFunction_points (inside b List.mem_cons_self) first
    · exact ih (fun b mem => inside b (List.mem_cons_of_mem _ mem)) more

theorem parseTokens_points {name : String} (lexed : lex src = .ok ts)
    (failed : parseTokens name src ts = .error (.refused c)) : Pointed ts c := by
  rcases parseTokens_error failed with reading | ⟨rest, d, read, filling⟩
  · exact (Points.here (m := readEntities src) (I := Anyhow) (List.suffix_refl ts) trivial).points
      reading
  · obtain ⟨known, -⟩ := entities_read lexed read
    refine fillFunctions_points (fun b mem => ?_) filling
    obtain ⟨⟨brace, -, -, -, -, source, -⟩, -⟩ := known.defined b mem
    obtain ⟨before, rfl⟩ := lex_unique lexed source
    exact (List.suffix_cons brace b.2).trans (List.suffix_append before _)

end

end BlockTally.Listing
