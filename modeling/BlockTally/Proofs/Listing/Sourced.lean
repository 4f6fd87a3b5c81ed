import BlockTally.Proofs.Listing.Lines
import BlockTally.Proofs.Listing.Mentioned

/-! What is known of an operation that is read, and of the scope behind an instruction: its operands
are entered first, then its result. Main statement: `readInstruction_went`. -/
namespace BlockTally.Listing
open Read

section
variable {m : Module} {ts between rest : List Lexeme} {s s' : Scope}

/-- Reading passes on to an operation, with what is known of it. -/
def OperationWent (m : Module) (ts : List Lexeme) (s : Scope) (op : Operation) (rest : List Lexeme)
    (s' : Scope) : Prop := Went ts s rest s' ∧ op.FromText m s'.function

private theorem of_fitting {f : Function} {op : Operation}
    (fits : ∀ p ∈ op.positions, Fitting m f p.1 p.2) (targets : ∀ id ∈ op.targets, (f.block? id).isSome)
    (tys : ∀ ty ∈ op.statedTys, ty.InRange) (shaped : op.Shaped) : op.FromText m f :=
  { operands := fun p mem => (fits p mem).1
    constants := fun _ p mem => (fits p mem).2
    targets, tys, shaped }

private theorem readArith_went {op : Arith} {made : Operation}
    (read : Reads (readArith m.symbol? op) ts s made rest s') :
    OperationWent m ts s made rest s' := by
  simp only [readArith, reads_bind, reads_pure] at read
  obtain ⟨⟨nuw, nsw⟩, _, _, flags, ty, _, _, type, lhs, _, _, left, _, _, _, comma, rhs, _, _, right,
    rfl, rfl, rfl⟩ := read
  obtain ⟨first, rfl⟩ := readFlags_passes flags
  obtain ⟨second, rfl, inRange⟩ := readTy_passes type
  obtain ⟨before, here, -⟩ := readOperand_went left
  obtain ⟨third, rfl⟩ := expect_passes rfl comma
  obtain ⟨behind, there, -⟩ := readOperand_went right
  refine ⟨((before.then third).trans behind).before (first.trans second), ?_⟩
  have here := here.mono behind.within
  exact of_fitting (List.forall_mem_cons.mpr ⟨here, List.forall_mem_singleton.mpr there⟩)
    (List.forall_mem_nil _) (List.forall_mem_singleton.mpr inRange) trivial

private theorem readConversion_went {op : Conversion} {made : Operation}
    (read : Reads (readConversion m.symbol? op) ts s made rest s') :
    OperationWent m ts s made rest s' := by
  simp only [readConversion, reads_bind, reads_pure] at read
  obtain ⟨source, _, _, type, o, _, _, operand, _, _, _, word, target, _, _, other, rfl, rfl, rfl⟩ :=
    read
  obtain ⟨first, rfl, inRange⟩ := readTy_passes type
  obtain ⟨went, fits, -⟩ := readOperand_went operand
  obtain ⟨second, rfl⟩ := expect_passes rfl word
  obtain ⟨third, rfl, inRange'⟩ := readTy_passes other
  refine ⟨(went.then (second.trans third)).before first, ?_⟩
  exact of_fitting (List.forall_mem_singleton.mpr fits) (List.forall_mem_nil _)
    (List.forall_mem_cons.mpr ⟨inRange, List.forall_mem_singleton.mpr inRange'⟩) trivial

private theorem readComparison_went {made : Operation}
    (whole : Reads (readComparison m.symbol?) ts s made rest s') :
    OperationWent m ts s made rest s' := by
  obtain ⟨text, _, _, mnemonic, read⟩ := reads_bind.mp whole
  obtain ⟨first, rfl⟩ := word_passes mnemonic
  split at read
  · exact absurd read reads_refuse
  · simp only [reads_bind, reads_pure] at read
    obtain ⟨ty, _, _, type, lhs, _, _, left, _, _, _, comma, rhs, _, _, right, rfl, rfl, rfl⟩ := read
    obtain ⟨second, rfl, inRange⟩ := readTy_passes type
    obtain ⟨before, here, -⟩ := readOperand_went left
    obtain ⟨third, rfl⟩ := expect_passes rfl comma
    obtain ⟨behind, there, -⟩ := readOperand_went right
    refine ⟨((before.then third).trans behind).before (first.trans second), ?_⟩
    have here := here.mono behind.within
    exact of_fitting (List.forall_mem_cons.mpr ⟨here, List.forall_mem_singleton.mpr there⟩)
      (List.forall_mem_nil _) (List.forall_mem_singleton.mpr inRange) trivial

private theorem readLoad_went {made : Operation}
    (read : Reads (readLoad m.symbol?) ts s made rest s') :
    OperationWent m ts s made rest s' := by
  simp only [readLoad, reads_bind, reads_pure] at read
  obtain ⟨_, _, _, volatile, ty, _, _, type, _, _, _, comma, ptr, _, _, pointer, rfl, rfl, rfl⟩ := read
  obtain ⟨first, rfl⟩ := eat_passes rfl volatile
  obtain ⟨second, rfl, inRange⟩ := readTy_passes type
  obtain ⟨third, rfl⟩ := expect_passes rfl comma
  obtain ⟨went, fits⟩ := readPointer_went pointer
  refine ⟨went.before ((first.trans second).trans third), ?_⟩
  exact of_fitting (List.forall_mem_singleton.mpr fits) (List.forall_mem_nil _)
    (List.forall_mem_singleton.mpr inRange) trivial

private theorem readStore_went {made : Operation}
    (read : Reads (readStore m.symbol?) ts s made rest s') :
    OperationWent m ts s made rest s' := by
  simp only [readStore, reads_bind, reads_pure] at read
  obtain ⟨_, _, _, volatile, ty, _, _, type, o, _, _, operand, _, _, _, comma, ptr, _, _, pointer, rfl,
    rfl, rfl⟩ := read
  obtain ⟨first, rfl⟩ := eat_passes rfl volatile
  obtain ⟨second, rfl, inRange⟩ := readTy_passes type
  obtain ⟨before, here, -⟩ := readOperand_went operand
  obtain ⟨third, rfl⟩ := expect_passes rfl comma
  obtain ⟨behind, there⟩ := readPointer_went pointer
  refine ⟨((before.then third).trans behind).before (first.trans second), ?_⟩
  have here := here.mono behind.within
  exact of_fitting (List.forall_mem_cons.mpr ⟨here, List.forall_mem_singleton.mpr there⟩)
    (List.forall_mem_nil _) (List.forall_mem_singleton.mpr inRange) trivial

/-- The edge is in the tables, and a constant fits the type of the phi. -/
def EdgeFitting (m : Module) (ty : Ty) (f : Function) (edge : Operand × BlockId) : Prop :=
  Fitting m f ty edge.1 ∧ (f.block? edge.2).isSome = true

private theorem readPhi_went {made : Operation}
    (read : Reads (readPhi m.symbol?) ts s made rest s') :
    OperationWent m ts s made rest s' := by
  simp only [readPhi, reads_bind, reads_pure] at read
  obtain ⟨ty, _, _, type, edge, _, _, one, incoming, _, _, others, rfl, rfl, rfl⟩ := read
  obtain ⟨first, rfl, inRange⟩ := readTy_passes type
  obtain ⟨before, fits⟩ := readEdge_went one
  obtain ⟨behind, each, nonempty⟩ := list_went (EdgeFitting m ty) (fun _ t _ _ picked => by
      have comma : t.token = .punct .comma := by
        by_contra other
        simp [other] at picked
      rw [comma]
      rfl)
    (fun _ _ _ within known => ⟨known.1.mono within, within.block known.2⟩)
    (fun _ _ _ _ _ => readEdge_went)
    (List.forall_mem_singleton.mpr fits) (by simp) others
  refine ⟨(before.trans behind).before first, ?_⟩
  exact of_fitting (List.forall_mem_map.mpr fun e mem => (each e mem).1)
    (List.forall_mem_map.mpr fun e mem => (each e mem).2) (List.forall_mem_singleton.mpr inRange) nonempty

theorem SiteFitting.mono {f g : Function} {site : CallSite} (fits : SiteFitting m f site)
    (within : f.Within g) : SiteFitting m g site :=
  ⟨fits.ret, fits.callee.mono within, fits.direct, fun arg mem => (fits.args arg mem).mono within⟩

theorem SiteFitting.positions {f : Function} {site : CallSite} (fits : SiteFitting m f site) :
    ∀ p ∈ (.ptr, site.callee) :: site.args, Fitting m f p.1 p.2 :=
  List.forall_mem_cons.mpr ⟨fits.callee, fun arg mem => (fits.args arg mem).2⟩

theorem SiteFitting.tys {f : Function} {site : CallSite} (fits : SiteFitting m f site) :
    ∀ ty ∈ site.ret :: site.args.map (·.1), ty.InRange :=
  List.forall_mem_cons.mpr ⟨fits.ret, List.forall_mem_map.mpr fun arg mem => (fits.args arg mem).1⟩

private theorem readInvoke_went {made : Operation}
    (read : Reads (readInvoke m.symbol?) ts s made rest s') :
    OperationWent m ts s made rest s' := by
  simp only [readInvoke, reads_bind, reads_pure] at read
  obtain ⟨site, _, _, call, _, _, _, arrow, normal, _, _, label, _, _, _, word, unwind, _, _, label', rfl,
    rfl, rfl⟩ := read
  obtain ⟨first, fits⟩ := readCallSite_went call
  obtain ⟨second, rfl⟩ := expect_passes rfl arrow
  obtain ⟨third, inside⟩ := readLabel_went label
  obtain ⟨fourth, rfl⟩ := expect_passes rfl word
  obtain ⟨fifth, inside'⟩ := readLabel_went label'
  refine ⟨(((first.then second).trans third).then fourth).trans fifth, ?_⟩
  have fits := fits.mono (third.within.trans fifth.within)
  have inside := fifth.within.block inside
  exact of_fitting fits.positions
    (List.forall_mem_cons.mpr ⟨inside, List.forall_mem_singleton.mpr inside'⟩) fits.tys fits.direct

private theorem readBranch_went {made : Operation}
    (whole : Reads (readBranch m.symbol?) ts s made rest s') :
    OperationWent m ts s made rest s' := by
  simp only [readBranch, reads_bind, reads_peekToken] at whole
  obtain ⟨_, _, _, ⟨rfl, rfl, rfl⟩, read⟩ := whole
  split at read
  · simp only [reads_bind, reads_pure] at read
    obtain ⟨dest, _, _, label, rfl, rfl, rfl⟩ := read
    obtain ⟨went, inside⟩ := readLabel_went label
    exact ⟨went, of_fitting (List.forall_mem_nil _) (List.forall_mem_singleton.mpr inside)
      (List.forall_mem_nil _) trivial⟩
  · simp only [reads_bind, reads_pure] at read
    obtain ⟨ty, _, _, type, cond, _, _, operand, _, _, _, comma, thenDest, _, _, label, _, _, _, comma',
      elseDest, _, _, label', rfl, rfl, rfl⟩ := read
    obtain ⟨first, rfl, -⟩ := readTy_passes type
    obtain ⟨second, fits, -⟩ := readOperand_went operand
    obtain ⟨third, rfl⟩ := expect_passes rfl comma
    obtain ⟨fourth, inside⟩ := readLabel_went label
    obtain ⟨fifth, rfl⟩ := expect_passes rfl comma'
    obtain ⟨sixth, inside'⟩ := readLabel_went label'
    refine ⟨((((second.then third).trans fourth).then fifth).trans sixth).before first, ?_⟩
    have fits := fits.mono (fourth.within.trans sixth.within)
    exact
      { operands := List.forall_mem_singleton.mpr fits.1
        constants := fun other => absurd rfl (other cond thenDest elseDest)
        targets := List.forall_mem_cons.mpr
          ⟨sixth.within.block inside, List.forall_mem_singleton.mpr inside'⟩
        tys := List.forall_mem_nil _
        shaped := trivial }

private theorem readReturn_went {made : Operation}
    (whole : Reads (readReturn m.symbol?) ts s made rest s') :
    OperationWent m ts s made rest s' := by
  obtain ⟨ty, _, _, type, read⟩ := reads_bind.mp whole
  obtain ⟨first, rfl, inRange⟩ := readTy_passes type
  split at read
  · rename_i void
    obtain ⟨rfl, rfl, rfl⟩ := reads_pure.mp read
    have shaped : (Operation.ret ty none).Shaped := by simpa [Operation.Shaped, Ty.isVoid] using void
    exact ⟨.still first, of_fitting (List.forall_mem_nil _) (List.forall_mem_nil _)
      (List.forall_mem_singleton.mpr inRange) shaped⟩
  · rename_i value
    simp only [reads_bind, reads_pure] at read
    obtain ⟨o, _, _, operand, rfl, rfl, rfl⟩ := read
    obtain ⟨went, fits, -⟩ := readOperand_went operand
    refine ⟨went.before first, ?_⟩
    have shaped : (Operation.ret ty (some o)).Shaped := by
      simpa [Operation.Shaped, Ty.isVoid] using value
    exact of_fitting (List.forall_mem_singleton.mpr fits) (List.forall_mem_nil _)
      (List.forall_mem_singleton.mpr inRange) shaped

private theorem readOperation_went {opcode : String} {made : Operation}
    (read : Reads (readOperation m.symbol? opcode) ts s made rest s') :
    OperationWent m ts s made rest s' := by
  unfold readOperation at read
  split at read
  · exact readArith_went read
  · exact readConversion_went read
  · split at read
    · obtain ⟨ty, _, _, type, done⟩ := reads_bind.mp read
      obtain ⟨rfl, rfl, rfl⟩ := reads_pure.mp done
      obtain ⟨first, rfl, inRange⟩ := readTy_passes type
      exact ⟨.still first, of_fitting (List.forall_mem_nil _) (List.forall_mem_nil _)
        (List.forall_mem_singleton.mpr inRange) trivial⟩
    · exact readLoad_went read
    · exact readStore_went read
    · exact readComparison_went read
    · exact readPhi_went read
    · obtain ⟨site, _, _, call, done⟩ := reads_bind.mp read
      obtain ⟨rfl, rfl, rfl⟩ := reads_pure.mp done
      obtain ⟨went, fits⟩ := readCallSite_went call
      exact ⟨went, of_fitting fits.positions (List.forall_mem_nil _) fits.tys fits.direct⟩
    · exact readInvoke_went read
    · exact readBranch_went read
    · exact readReturn_went read
    · obtain ⟨rfl, rfl, rfl⟩ := reads_pure.mp read
      exact ⟨.still (.refl _), of_fitting (List.forall_mem_nil _) (List.forall_mem_nil _)
        (List.forall_mem_nil _) trivial⟩
    · exact absurd read reads_refuse

/-! Instructions. -/

private theorem readAttachment_passes {σ : Type} {s s' : σ} {node : Option UInt32}
    (whole : Reads readAttachment ts s node rest s') : Passes ts rest ∧ s' = s := by
  simp only [readAttachment, reads_bind, reads_peekToken, reads_skip] at whole
  obtain ⟨next, _, _, ⟨sign, rfl, rfl⟩, _, _, _, ⟨rfl, rfl⟩, read⟩ := whole
  split at read
  · rename_i n numbered
    obtain ⟨t, here, number⟩ := Option.bind_eq_some_iff.mp numbered
    obtain rfl := Token.node?_eq_some.mp number
    obtain ⟨rfl, rfl, rfl⟩ := reads_pure.mp read
    exact ⟨passes_tail (sign.symm.trans here) rfl, rfl⟩
  · split at read
    · next bang =>
      simp only [reads_bind, reads_peekToken] at read
      obtain ⟨_, _, _, ⟨rfl, rfl, rfl⟩, choice⟩ := read
      split at choice
      · simp only [reads_bind, reads_pure] at choice
        obtain ⟨_, _, _, braces, rfl, rfl, rfl⟩ := choice
        obtain ⟨inside, rfl⟩ := braces_passes braces
        exact ⟨(passes_tail (sign.symm.trans bang) rfl).trans inside, rfl⟩
      · exact absurd choice reads_refuse
    · exact absurd read reads_refuse

private theorem readTrailer_passes {σ : Type} {s s' : σ} {trailer : Trailer}
    (read : Reads readTrailer ts s trailer rest s') : Passes ts rest ∧ s' = s := by
  refine whileNext_passes ?_ ?_ read
  · intro _ t _ _ picked
    have comma : t.token = .punct .comma := by
      by_contra other
      simp [other] at picked
    rw [comma]
    rfl
  · intro trailer t ts s kind _ rest s' picked round
    obtain ⟨_, _, _, skipped, read⟩ := reads_bind.mp round
    obtain ⟨rfl, rfl⟩ := reads_skip.mp skipped
    have front : Passes ts ts.tail := by
      split at picked
      · cases picked
      split at picked
      · rename_i next
        exact passes_tail next rfl
      · rename_i next
        exact passes_tail next rfl
      · cases picked
    split at read
    · simp only [reads_bind, reads_pure] at read
      obtain ⟨_, _, _, number, -, rfl, rfl⟩ := read
      obtain ⟨passes, rfl⟩ := readWord32_passes number
      exact ⟨front.trans passes, rfl⟩
    · obtain ⟨_, _, _, attachment, done⟩ := reads_bind.mp read
      obtain ⟨passes, rfl⟩ := readAttachment_passes attachment
      split at done
      · split at done
        · obtain ⟨-, rfl, rfl⟩ := reads_pure.mp done
          exact ⟨front.trans passes, rfl⟩
        · obtain ⟨-, rfl, rfl⟩ := reads_pure.mp done
          exact ⟨front.trans passes, rfl⟩
      · obtain ⟨-, rfl, rfl⟩ := reads_pure.mp done
        exact ⟨front.trans passes, rfl⟩

private theorem readOpcode_passes {σ : Type} {s s' : σ} {first : Lexeme}
    {found : Option String × String} (whole : Reads (readOpcode first) ts s found rest s') :
    isFlat first.token = true ∧ Passes ts rest ∧ s' = s ∧
      ∀ name, found.1 = some name → first.token = .localName name := by
  simp only [readOpcode, reads_bind, reads_peekToken] at whole
  obtain ⟨_, _, _, ⟨rfl, rfl, rfl⟩, read⟩ := whole
  split at read
  · rename_i name token next
    simp only [reads_bind, reads_skip, reads_pure] at read
    obtain ⟨_, _, _, ⟨rfl, rfl⟩, _, _, _, mnemonic, rfl, rfl, rfl⟩ := read
    obtain ⟨passes, rfl⟩ := word_passes mnemonic
    rw [token]
    exact ⟨rfl, (passes_tail next rfl).trans passes, rfl, by simp⟩
  · rename_i token
    obtain ⟨rfl, rfl, rfl⟩ := reads_pure.mp read
    rw [token]
    exact ⟨rfl, .refl _, rfl, by simp⟩
  · exact absurd read reads_refuseAt

/-- The scope after an instruction, whose operands are entered before its result. -/
def Defines (inst : Instruction) (s s' : Scope) : Prop :=
  match inst.result with
  | none => s' = s
  | some id => inst.op.resultTy ≠ .void ∧ Define inst.op.resultTy id s s'

private theorem readResult_defines {first : Lexeme} {opcode : String} {op : Operation}
    {plain inst : Instruction} {result : Option String}
    (sign : ∀ name, result = some name → first.token = .localName name)
    (ty : plain.op.resultTy = op.resultTy) (none : plain.result = .none)
    (read : Reads (readResult first.start opcode op plain result) ts s inst rest s') :
    rest = ts ∧ inst.op = plain.op ∧ Defines inst s s' ∧ NamesFrom [first] s s' := by
  cases result with
  | none =>
    obtain ⟨rfl, rfl, rfl⟩ := reads_pure.mp read
    exact ⟨rfl, rfl, by rw [Defines, none], .refl _ _⟩
  | some name =>
    change Reads (if op.resultTy.isVoid then _ else _) ts s inst rest s' at read
    split at read
    · exact absurd read reads_refuseAt
    · rename_i yields
      simp only [reads_bind, reads_pure] at read
      obtain ⟨id, _, _, definition, rfl, rfl, rfl⟩ := read
      obtain ⟨rfl, define, names⟩ := defineLocal_defines definition
      refine ⟨rfl, rfl, ?_, names first (sign name rfl)⟩
      simp only [Defines, ty]
      exact ⟨by simpa [Ty.isVoid] using yields, define⟩

/-- An instruction behind its opcode. -/
def readBehind (m : Module) (first : Lexeme) (result : Option String) (opcode : String) :
    Read Scope Instruction := do
  let op ← readOperation m.symbol? opcode
  let trailer ← readTrailer
  readResult first.start opcode op { op := op.aligned trailer.align, dbg := trailer.dbg } result

/-- An instruction is read behind its first token, and its operands are entered before its result. -/
structure InstructionWent (m : Module) (first : Lexeme) (ts : List Lexeme) (s : Scope)
    (inst : Instruction) (rest : List Lexeme) (s' : Scope) : Prop where
  passes : Passes ts rest
  scope : ∃ middle, Mentions s middle ∧ inst.op.FromText m middle.function ∧ Defines inst middle s'
  names : NamesFrom (first :: ts) s s'

theorem InstructionWent.before {first : Lexeme} {inst : Instruction}
    (went : InstructionWent m first between s inst rest s') (passes : Passes ts between) :
    InstructionWent m first ts s inst rest s' where
  passes := passes.trans went.passes
  scope := went.scope
  names := (NamesFrom.refl _ s).trans went.names (List.cons_subset_cons _ passes.subset)

private theorem readBehind_went {first : Lexeme} {result : Option String} {opcode : String}
    {inst : Instruction} (sign : ∀ name, result = some name → first.token = .localName name)
    (read : Reads (readBehind m first result opcode) ts s inst rest s') :
    InstructionWent m first ts s inst rest s' := by
  simp only [readBehind, reads_bind] at read
  obtain ⟨op, _, middle, operation, trailer, _, _, notes, last⟩ := read
  obtain ⟨went, known⟩ := readOperation_went operation
  obtain ⟨behind, rfl⟩ := readTrailer_passes notes
  obtain ⟨rfl, same, defines, names⟩ :=
    readResult_defines sign (resultTy_aligned op trailer.align) rfl last
  refine ⟨went.passes.trans behind, ⟨_, went.mentions, ?_, defines⟩, ?_⟩
  · rw [same]
    exact known.aligned trailer.align
  · have front := (NamesFrom.refl (first :: ts) s).trans went.names (List.subset_cons_self _ _)
    exact front.trans names (by simp)

theorem readInstruction_went {first : Lexeme} {inst : Instruction}
    (whole : Reads (readInstruction m.symbol? first) ts s inst rest s') :
    isFlat first.token = true ∧ InstructionWent m first ts s inst rest s' := by
  rw [readInstruction_eq] at whole
  obtain ⟨⟨result, text⟩, _, _, opening, read⟩ := reads_bind.mp whole
  obtain ⟨flat, before, rfl, sign⟩ := readOpcode_passes opening
  refine ⟨flat, ?_⟩
  dsimp only at read
  split at read
  · obtain ⟨opcode, _, _, call, last⟩ := reads_bind.mp read
    obtain ⟨between, rfl⟩ := word_passes call
    exact (readBehind_went sign last).before (before.trans between)
  · obtain ⟨opcode, _, _, plain, last⟩ := reads_bind.mp read
    obtain ⟨rfl, rfl, rfl⟩ := reads_pure.mp plain
    exact (readBehind_went sign last).before before

end

end BlockTally.Listing
