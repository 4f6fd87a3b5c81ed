import BlockTally.Proofs.Listing.Entered
import BlockTally.Proofs.Listing.Groups

/-! Reading written operations. Main statements: `takes_callSite`, `takes_operation`. -/
namespace BlockTally.Listing
open Read

section
variable {m m' : Module} {f g : Function} {defs uses : List ValueId}

theorem operandToken_shape (m : Module) (f : Function) (o : Operand) :
    (∃ name, operandToken m f o = .localName name) ∨ (∃ name, operandToken m f o = .globalName name) ∨
      (∃ value, operandToken m f o = .int value) ∨
      ∃ text, operandToken m f o = .word text ∧ isConstantWord text = true := by
  cases o with
  | value => exact .inl ⟨_, rfl⟩
  | global | function => exact .inr (.inl ⟨_, rfl⟩)
  | constant c =>
    cases c with
    | int width value =>
      by_cases bit : width = 1
      · refine .inr (.inr (.inr ⟨_, by rw [operandToken, constantToken, if_pos bit], ?_⟩))
        split <;> decide
      · exact .inr (.inr (.inl ⟨value, by rw [operandToken, constantToken, if_neg bit]⟩))
    | null | undef | poison => exact .inr (.inr (.inr ⟨_, rfl, by decide⟩))

private theorem operandToken_ne (m : Module) (f : Function) (o : Operand) :
    (∀ p, operandToken m f o ≠ .punct p) ∧ operandToken m f o ≠ .attrRef ∧
      ∀ text, operandToken m f o = .word text → isConstantWord text = true := by
  rcases operandToken_shape m f o with ⟨_, same⟩ | ⟨_, same⟩ | ⟨_, same⟩ | ⟨_, same, constant⟩ <;>
    rw [same]
  · exact ⟨fun _ => nofun, nofun, fun _ => nofun⟩
  · exact ⟨fun _ => nofun, nofun, fun _ => nofun⟩
  · exact ⟨fun _ => nofun, nofun, fun _ => nofun⟩
  · refine ⟨fun _ => nofun, nofun, fun text word => ?_⟩
    rw [← Token.word.inj word]
    exact constant

private theorem noStar_operand {o : Operand} (r : List Token) :
    NoStar ([operandToken m f o] ++ r) := by
  intro star
  exact (operandToken_ne m f o).1 .star (Option.some.inj star)

private theorem noAttribute_operand {o : Operand} (r : List Token) :
    NoAttribute ([operandToken m f o] ++ r) := by
  intro t first
  obtain rfl : operandToken m f o = t := Option.some.inj first
  obtain ⟨-, no_group, constant⟩ := operandToken_ne m f o
  exact ⟨no_group, fun text word => .inr (constant text word)⟩

variable (resolved : Resolved m m' f) (labels : g.blocks.map (·.name) = f.blocks.map (·.name))
include resolved

private theorem takes_pointer {ptr : Operand} (known : OperandKnown m f ptr)
    (fits : ptr.ReadableAt .ptr) :
    Takes (readPointer m'.symbol?) ([.word "ptr"] ++ [operandToken m f ptr]) Anything
      (Midway m f g defs (ptr.value?.toList ++ uses)) (ptr.reread f.number .ptr)
      (Midway m f g defs uses) :=
  (@takes_ty _ _ .ptr trivial).bind (takes_operand resolved known fits) fun r _ => noStar_operand r

omit resolved in
private theorem filterMap_value?_cons (o : Operand) (rest : List Operand) (uses : List ValueId) :
    (o :: rest).filterMap Operand.value? ++ uses =
      o.value?.toList ++ (rest.filterMap Operand.value? ++ uses) := by
  cases o <;> rfl

/-- The argument fits its type and can be written. -/
def ArgReadable (m : Module) (f : Function) (arg : Ty × Operand) : Prop :=
  arg.1.InRange ∧ OperandKnown m f arg.2 ∧ arg.2.ReadableAt arg.1

private theorem takes_arg {arg : Ty × Operand} (ok : ArgReadable m f arg) :
    Takes (readArg m'.symbol?) (argTokens m f arg) Anything
      (Midway m f g defs (arg.2.value?.toList ++ uses)) (arg.1, arg.2.reread f.number arg.1)
      (Midway m f g defs uses) := by
  obtain ⟨ty, known, fits⟩ := ok
  have operand : Takes (do return (arg.1, ← readOperand m'.symbol? arg.1)) ([operandToken m f arg.2] ++ [])
      Anything (Midway m f g defs (arg.2.value?.toList ++ uses))
      (arg.1, arg.2.reread f.number arg.1) (Midway m f g defs uses) :=
    (takes_operand resolved known fits).next takes_pure
  refine ((takes_ty ty).bind (takes_noAttributes.bind operand ?_) ?_).cast ?_
  · exact fun r _ => by simpa using noAttribute_operand r
  · exact fun r _ => by simpa using noStar_operand r
  · simp [argTokens]

private theorem takes_args {args : List (Ty × Operand)} (ok : ∀ arg ∈ args, ArgReadable m f arg) :
    Takes (readArgs m'.symbol?) (separated (args.map (argTokens m f)) ++ [.punct .rparen]) Anything
      (Midway m f g defs ((args.map (·.2)).filterMap Operand.value? ++ uses))
      (args.map fun arg => (arg.1, arg.2.reread f.number arg.1)) (Midway m f g defs uses) := by
  cases args with
  | nil => exact takes_eaten takes_pure
  | cons first rest =>
    have each : ∀ arg ∈ rest, ∀ later : List (Ty × Operand), Takes (readArg m'.symbol?) (argTokens m f arg)
        Anything
        (Midway m f g defs (((arg :: later).map (·.2)).filterMap Operand.value? ++ uses))
        (arg.1, arg.2.reread f.number arg.1)
        (Midway m f g defs ((later.map (·.2)).filterMap Operand.value? ++ uses)) := by
      intro arg mem later
      rw [List.map_cons, filterMap_value?_cons]
      exact takes_arg resolved (ok arg (List.mem_cons_of_mem _ mem))
    have closes : ∀ (t : Lexeme) (ts : List Lexeme),
        ((t :: ts).map (·.token)).head? = some (.punct .rparen) → t.token ≠ .punct .comma := by
      intro t ts close comma
      rw [List.map_cons, comma] at close
      cases close
    have loop : Takes (whileNext (fun _ t _ => if t.token = .punct .comma then some () else none)
        (fun _ args => return args ++ [← readArg m'.symbol?]) [(first.1, first.2.reread f.number first.1)])
        _ (fun r => r.head? = some (.punct .rparen)) _ _ _ :=
      takes_list (argTokens m f) (fun arg => (arg.1, arg.2.reread f.number arg.1))
        (fun later => Midway m f g defs ((later.map (·.2)).filterMap Operand.value? ++ uses))
        (fun _ _ _ t _ _ comma _ => if_pos comma) each
        (fun _ t ts close => if_neg (closes t ts close)) _
    have mentions : ((first :: rest).map (·.2)).filterMap Operand.value? ++ uses =
        first.2.value?.toList ++ ((rest.map (·.2)).filterMap Operand.value? ++ uses) := by
      rw [List.map_cons, filterMap_value?_cons]
    rw [mentions]
    unfold readArgs
    refine takes_not_eaten (Takes.cast ((takes_arg resolved (ok first List.mem_cons_self)).next
      (loop.bind (takes_eaten takes_pure) fun r _ => rfl)) ?_) ?_
    · simp [separated, List.flatMap_map]
    · simp [separated, argTokens]

/-- What is read of a call site has the type that it is written with. -/
structure SiteReadable (m : Module) (f : Function) (site : CallSite) : Prop where
  ret : (site.writtenRet m).InRange
  callee : OperandKnown m f site.callee
  direct : ∀ c, site.callee ≠ .constant c
  args : ∀ arg ∈ site.args, ArgReadable m f arg

abbrev NoAttrRef : List Token → Prop := fun r => r.head? ≠ some .attrRef

/-- A call site from the callee on. -/
def readSite (m : Module) (ret : Ty) : Read Scope CallSite := do
  let callee ← match ← peekToken with
    | some (.localName _) | some (.globalName _) => readOperand m.symbol? .ptr
    | _ => unexpected .callee
  expect (.punct .lparen)
  let args ← readArgs m.symbol?
  whileNext (fun _ t _ => if t.token = .attrRef then some () else none) (fun _ _ => return ()) ()
  return { ret, callee, args }

omit resolved in
theorem readCallSite_eq (m : Module) : readCallSite m.symbol? = (do
    skipAttributes
    let ret ← readTy
    if (← peekToken) = some (.punct .lparen) then
      group .lparen .rparen
      let _ ← eat (.punct .star)
      readSite m ret
    else readSite m ret) := rfl

private theorem takes_site {site : CallSite} (ok : SiteReadable m f site) (ret : Ty) :
    Takes (readSite m' ret) ([operandToken m f site.callee] ++ ([.punct .lparen] ++
        ((separated (site.args.map (argTokens m f)) ++ [.punct .rparen]) ++ ([] ++ [])))) NoAttrRef
      (Midway m f g defs ((site.callee :: site.args.map (·.2)).filterMap Operand.value? ++ uses))
      { site.reread m f.number with ret } (Midway m f g defs uses) := by
  have ends : ∀ (t : Lexeme) (ts : List Lexeme), NoAttrRef ((t :: ts).map (·.token)) →
      (if t.token = .attrRef then some () else none) = none := by
    intro t ts other
    refine if_neg fun same => other ?_
    rw [List.map_cons, same]
    rfl
  have fits : site.callee.ReadableAt .ptr := by
    have direct := ok.direct
    cases callee : site.callee with
    | constant c => exact absurd callee (direct c)
    | _ => trivial
  have behind : ∀ callee : Operand, callee = site.callee.reread f.number .ptr →
      Takes (do
        expect (.punct .lparen)
        let args ← readArgs m'.symbol?
        whileNext (fun _ t _ => if t.token = .attrRef then some () else none)
          (fun _ _ => return ()) ()
        return ({ ret, callee, args } : CallSite)) ([.punct .lparen] ++
          ((separated (site.args.map (argTokens m f)) ++ [.punct .rparen]) ++ ([] ++ [])))
        NoAttrRef (Midway m f g defs ((site.args.map (·.2)).filterMap Operand.value? ++ uses))
        { site.reread m f.number with ret } (Midway m f g defs uses) := by
    rintro _ rfl
    exact takes_expect.next ((takes_args resolved ok.args).next
      ((takes_unlooped ends).bind takes_pure fun _ => id))
  have operand : ∀ later, Takes (readOperand m'.symbol? .ptr) [operandToken m f site.callee] Anything
      (Midway m f g defs (site.callee.value?.toList ++ later)) (site.callee.reread f.number .ptr)
      (Midway m f g defs later) := fun later => takes_operand resolved ok.callee fits
  rw [filterMap_value?_cons]
  unfold readSite
  have direct := ok.direct
  cases callee : site.callee with
  | constant c => exact absurd callee (direct c)
  | value id | global id | function id =>
    rw [callee] at operand
    refine takes_peekToken ?_
    exact (operand _).next (behind _ (by rw [callee]))

omit resolved in
private theorem noAttribute_ty {ty : Ty} (ok : ty.InRange) (r : List Token) :
    NoAttribute (.word ty.text :: r) := by
  intro t first
  obtain rfl : Token.word ty.text = t := Option.some.inj first
  refine ⟨nofun, fun text word => .inl ?_⟩
  rw [← Token.word.inj word, Ty.ofKeyword?_text ok]
  rfl

omit resolved in
/-- There are no parentheses among the parameters of a signature. -/
theorem flat_parameters (sig : Signature) :
    ∀ t ∈ separated (sig.params.map (fun ty => [.word ty.text]) ++
      if sig.variadic then [[.punct .ellipsis]] else []),
      t ≠ .punct .lparen ∧ t ≠ .punct .rparen := by
  have parts : ∀ (lists : List (List Token)),
      (∀ l ∈ lists, ∀ t ∈ l, t ≠ .punct .lparen ∧ t ≠ .punct .rparen) →
      ∀ t ∈ separated lists, t ≠ .punct .lparen ∧ t ≠ .punct .rparen := by
    intro lists each t mem
    cases lists with
    | nil => cases mem
    | cons first rest =>
      rcases List.mem_append.mp mem with here | there
      · exact each first List.mem_cons_self t here
      · obtain ⟨l, inside, mem⟩ := List.mem_flatMap.mp there
        rcases List.mem_cons.mp mem with rfl | mem
        · exact ⟨nofun, nofun⟩
        · exact each l (List.mem_cons_of_mem _ inside) t mem
  refine parts _ fun l mem t inside => ?_
  rcases List.mem_append.mp mem with param | last
  · obtain ⟨ty, -, rfl⟩ := List.mem_map.mp param
    rw [List.mem_singleton.mp inside]
    exact ⟨nofun, nofun⟩
  · split at last
    · rw [List.mem_singleton.mp last] at inside
      rw [List.mem_singleton.mp inside]
      exact ⟨nofun, nofun⟩
    · cases last

theorem takes_callSite {site : CallSite} (ok : SiteReadable m f site) :
    Takes (readCallSite m'.symbol?) (callSiteTokens m f site) NoAttrRef
      (Midway m f g defs ((site.callee :: site.args.map (·.2)).filterMap Operand.value? ++ uses))
      (site.reread m f.number) (Midway m f g defs uses) := by
  rw [readCallSite_eq]
  have site_read : Takes (readSite m' (site.writtenRet m)) _ NoAttrRef
      (Midway m f g defs ((site.callee :: site.args.map (·.2)).filterMap Operand.value? ++ uses))
      (site.reread m f.number) (Midway m f g defs uses) := takes_site resolved ok _
  have ret := ok.ret
  have no_mark : ∀ p r, ([operandToken m f site.callee] ++ r).head? ≠ some (.punct p) := by
    intro p r mark
    exact (operandToken_ne m f site.callee).1 p (Option.some.inj mark)
  cases variadic : variadicCallee? m site with
  | none =>
    have direct : site.writtenRet m = site.ret := by rw [CallSite.writtenRet, variadic]
    refine (takes_noAttributes.bind ((takes_ty ret).bind (takes_not_peeked site_read ?_) ?_) ?_).cast
      ?_
    · exact fun r _ => no_mark .lparen _
    · exact fun r _ => no_mark .star _
    · exact fun r _ => noAttribute_ty ret _
    · simp only [callSiteTokens, calleeTyTokens, variadic, direct]
      simp
  | some callee =>
    have direct : site.writtenRet m = callee.signature.ret := by
      rw [CallSite.writtenRet, variadic]
      rfl
    refine (takes_noAttributes.bind ((takes_ty ret).bind (takes_peeked
      ((takes_group (closes_flat (by decide) (flat_parameters callee.signature))).next
        ((takes_uneaten fun _ => id).bind site_read ?_))) ?_) ?_).cast ?_
    · exact fun r _ => no_mark .star _
    · exact fun r _ => by simp
    · exact fun r _ => noAttribute_ty ret _
    · simp only [callSiteTokens, calleeTyTokens, variadic, direct, signatureTokens]
      simp

variable {labels}

private theorem takes_pair {lhs rhs : Operand} {ty : Ty} (ok : ty.InRange)
    (left : OperandKnown m f lhs ∧ lhs.ReadableAt ty)
    (right : OperandKnown m f rhs ∧ rhs.ReadableAt ty) {α : Type} {result : α}
    {done : Ty → Operand → Operand → α}
    (made : done ty (lhs.reread f.number ty) (rhs.reread f.number ty) = result) :
    Takes (do
        let ty ← readTy
        let lhs ← readOperand m'.symbol? ty
        expectComma
        return done ty lhs (← readOperand m'.symbol? ty)) (pairTokens m f ty lhs rhs) Anything
      (Midway m f g defs (lhs.value?.toList ++ (rhs.value?.toList ++ uses))) result
      (Midway m f g defs uses) := by
  have second : Takes (do
      expectComma
      return done ty (lhs.reread f.number ty) (← readOperand m'.symbol? ty))
      ([.punct .comma] ++ ([operandToken m f rhs] ++ [])) Anything
      (Midway m f g defs (rhs.value?.toList ++ uses)) result (Midway m f g defs uses) := by
    rw [← made]
    exact takes_expect.next ((takes_operand resolved right.1 right.2).next takes_pure)
  refine ((takes_ty ok).bind ((takes_operand resolved left.1 left.2).next second) ?_).cast ?_
  · exact fun r _ => noStar_operand _
  · simp [pairTokens]

private theorem takes_label (labels : g.blocks.map (·.name) = f.blocks.map (·.name)) {id : BlockId}
    (known : BlockKnown f id) :
    Takes (readLabel : Read Scope BlockId) (labelTokens f id) Anything (Midway m f g defs uses) id
      (Midway m f g defs uses) :=
  takes_expect.next (takes_block resolved labels known)

private theorem takes_edge (labels : g.blocks.map (·.name) = f.blocks.map (·.name)) {ty : Ty}
    {edge : Operand × BlockId} (value : OperandKnown m f edge.1) (fits : edge.1.ReadableAt ty)
    (block : BlockKnown f edge.2) :
    Takes (readEdge m'.symbol? ty) (edgeTokens m f edge) Anything
      (Midway m f g defs (edge.1.value?.toList ++ uses)) (edge.1.reread f.number ty, edge.2)
      (Midway m f g defs uses) := by
  refine (takes_expect.next ((takes_operand resolved value fits).next (takes_expect.next
    ((takes_block resolved labels block).next
      (takes_expect.next (f := fun _ => pure _) takes_pure))))).cast ?_
  simp [edgeTokens]

/-- What may follow an operation. -/
abbrev Over : List Token → Prop := fun r => NoStar r ∧ NoAttrRef r ∧
  ∀ more, r ≠ .punct .comma :: .punct .lbracket :: more

omit resolved in
/-- Whether another edge follows is seen by a comma and a bracket. -/
theorem isNextEdge_iff {t : Lexeme} {ts : List Lexeme} :
    (t.token = .punct .comma && ts.head?.map Lexeme.token = some (.punct .lbracket)) = true ↔
      ∃ more, (t :: ts).map (·.token) = .punct .comma :: .punct .lbracket :: more := by
  cases ts with
  | nil => simp
  | cons u ts => simp

private theorem takes_phi (labels : g.blocks.map (·.name) = f.blocks.map (·.name)) {ty : Ty}
    {incoming : List (Operand × BlockId)} (ok : ty.InRange) (nonempty : incoming ≠ [])
    (each : ∀ edge ∈ incoming, OperandKnown m f edge.1 ∧ edge.1.ReadableAt ty ∧
      BlockKnown f edge.2) :
    Takes (readPhi m'.symbol?) ([.word ty.text] ++ separated (incoming.map (edgeTokens m f))) Over
      (Midway m f g defs ((incoming.map (·.1)).filterMap Operand.value? ++ uses))
      (.phi ty (incoming.map fun edge => (edge.1.reread f.number ty, edge.2)))
      (Midway m f g defs uses) := by
  obtain ⟨first, rest, rfl⟩ := List.exists_cons_of_ne_nil nonempty
  have mentions : ((first :: rest).map (·.1)).filterMap Operand.value? ++ uses =
      first.1.value?.toList ++ ((rest.map (·.1)).filterMap Operand.value? ++ uses) := by
    rw [List.map_cons, filterMap_value?_cons]
  have one : ∀ edge ∈ first :: rest, ∀ later, Takes (readEdge m'.symbol? ty) (edgeTokens m f edge) Anything
      (Midway m f g defs (edge.1.value?.toList ++ later)) (edge.1.reread f.number ty, edge.2)
      (Midway m f g defs later) := by
    intro edge mem later
    obtain ⟨value, fits, block⟩ := each edge mem
    exact takes_edge resolved labels value fits block
  have later_edges : ∀ edge ∈ rest, ∀ later : List (Operand × BlockId),
      Takes (readEdge m'.symbol? ty) (edgeTokens m f edge) Anything
        (Midway m f g defs (((edge :: later).map (·.1)).filterMap Operand.value? ++ uses))
        (edge.1.reread f.number ty, edge.2)
        (Midway m f g defs ((later.map (·.1)).filterMap Operand.value? ++ uses)) := by
    intro edge mem later
    rw [List.map_cons, filterMap_value?_cons]
    exact one edge (List.mem_cons_of_mem _ mem) _
  have loop : Takes (whileNext
      (fun _ t ts =>
        if t.token = .punct .comma && ts.head?.map Lexeme.token = some (.punct .lbracket) then some ()
        else none)
      (fun _ edges => return edges ++ [← readEdge m'.symbol? ty]) [(first.1.reread f.number ty, first.2)])
      _ Over _ _ _ :=
    takes_list (edgeTokens m f) (fun edge => (edge.1.reread f.number ty, edge.2))
      (fun later => Midway m f g defs ((later.map (·.1)).filterMap Operand.value? ++ uses))
      (fun _ _ _ _ _ _ comma same =>
        if_pos (isNextEdge_iff.mpr ⟨_, by rw [List.map_cons, comma, same]; rfl⟩)) later_edges
      (fun _ _ _ ended => if_neg fun next => ended.2.2 _ (isNextEdge_iff.mp next).choose_spec) _
  rw [mentions]
  unfold readPhi
  refine ((takes_ty ok).bind ((one first List.mem_cons_self _).next loop.returns) ?_).cast ?_
  · exact fun r _ => by simp [edgeTokens]
  · simp [separated, List.flatMap_map]

end

/-! Operations: an opcode, what `argumentTokens` lists, and an alignment. -/

def alignOf : Operation → Option UInt32
  | .alloca _ align | .load _ _ align | .store _ _ _ align => align
  | _ => none

def argumentTokens (m : Module) (f : Function) : Operation → List Token
  | .alloca ty _ => [.word ty.text]
  | .load ty ptr _ => [.word ty.text] ++ [.punct .comma] ++ ([.word "ptr"] ++ [operandToken m f ptr])
  | .store ty value ptr _ =>
    [.word ty.text] ++ [operandToken m f value] ++ [.punct .comma] ++
      ([.word "ptr"] ++ [operandToken m f ptr])
  | .arith _ ty lhs rhs nuw nsw => flagTokens nuw nsw ++ pairTokens m f ty lhs rhs
  | .icmp pred ty lhs rhs => [.word pred.mnemonic] ++ pairTokens m f ty lhs rhs
  | .convert _ source value target =>
    [.word source.text] ++ [operandToken m f value] ++ [.word "to"] ++ [.word target.text]
  | .phi ty incoming => [.word ty.text] ++ separated (incoming.map (edgeTokens m f))
  | .call site => callSiteTokens m f site
  | .invoke site normal unwind =>
    callSiteTokens m f site ++ [.word "to"] ++ labelTokens f normal ++ [.word "unwind"] ++
      labelTokens f unwind
  | .br dest => labelTokens f dest
  | .condBr cond thenDest elseDest =>
    [.word "i1"] ++ [operandToken m f cond] ++ [.punct .comma] ++ labelTokens f thenDest ++
      [.punct .comma] ++ labelTokens f elseDest
  | .ret ty (some value) => [.word ty.text] ++ [operandToken m f value]
  | .ret _ none => [.word "void"]
  | .unreachable => []

theorem operationTokens_eq (m : Module) (f : Function) (op : Operation) :
    operationTokens m f op = [.word op.opcode] ++ (argumentTokens m f op ++ alignTokens (alignOf op)) := by
  cases op with
  | ret ty value => cases value <;> simp [operationTokens, argumentTokens, alignOf, alignTokens,
      Operation.opcode]
  | _ => simp [operationTokens, argumentTokens, alignOf, alignTokens, Operation.opcode]

theorem aligned_reread (m : Module) (number : ValueId → ValueId) (op : Operation) :
    ((op.reread m number).aligned none).aligned (alignOf op) = op.reread m number := by
  cases op <;> rfl

section
variable {σ : Type} {P : σ → Prop}

/-- No flag follows. -/
abbrev NoFlag : List Token → Prop := fun r => ∀ text, r.head? = some (.word text) →
  ["nuw", "nsw", "disjoint", "exact"].contains text = false

private theorem takes_flags (nuw nsw : Bool) :
    Takes (readFlags : Read σ (Bool × Bool)) (flagTokens nuw nsw) NoFlag P (nuw, nsw) P := by
  have items : flagTokens nuw nsw =
      ((if nuw then ["nuw"] else []) ++ if nsw then ["nsw"] else []).flatMap fun text =>
        Token.word text :: [] := by
    cases nuw <;> cases nsw <;> rfl
  have result : ((if nuw then ["nuw"] else []) ++ if nsw then ["nsw"] else []).foldl
      (fun (flags : Bool × Bool) text => (flags.1 || text == "nuw", flags.2 || text == "nsw"))
      (false, false) = (nuw, nsw) := by
    cases nuw <;> cases nsw <;> rfl
  have known : ∀ text ∈ (if nuw then ["nuw"] else []) ++ (if nsw then ["nsw"] else []),
      ["nuw", "nsw", "disjoint", "exact"].contains text = true := by
    cases nuw <;> cases nsw <;> decide
  have once : ∀ (text : String) (flags : Bool × Bool), Takes
      (return (flags.1 || text == "nuw", flags.2 || text == "nsw") : Read σ (Bool × Bool)) []
      Anything P (flags.1 || text == "nuw", flags.2 || text == "nsw") P := fun _ _ => takes_pure
  rw [items, ← result]
  refine takes_loop Token.word (fun _ => []) (fun text _ => text)
    (fun (flags : Bool × Bool) text => (flags.1 || text == "nuw", flags.2 || text == "nsw"))
    (fun _ _ => P) Anything ?_ (fun text _ _ _ flags _ => once text flags) (fun _ _ _ => trivial) ?_ _
  · intro text mem a t ts more word _
    simp only [word, known text mem, if_true]
  · intro flags t ts stopped
    cases token : t.token with
    | word text =>
      have other := stopped text (by rw [List.map_cons, token]; rfl)
      simp only [other, Bool.false_eq_true, if_false]
    | _ => rfl

end

section
variable {m m' : Module} {f g : Function} {defs uses : List ValueId}

/-- No instruction reads as another kind than its own. -/
theorem readOperation_arith (m : Module) (op : Arith) :
    readOperation m.symbol? op.mnemonic = readArith m.symbol? op := by
  cases op <;> rfl

/-- Words that are no types stay apart from them. -/
theorem ty_first_ne {ty : Ty} (ok : ty.InRange) {text : String}
    (other : Ty.ofKeyword? text = none) (r : List Token) :
    (Token.word ty.text :: r).head? ≠ some (.word text) := by
  intro same
  have known := Ty.ofKeyword?_text ok
  rw [Token.word.inj (Option.some.inj same), other] at known
  cases known

private theorem readOperation_conversion (m : Module) (op : Conversion) :
    readOperation m.symbol? op.mnemonic = readConversion m.symbol? op := by
  cases op <;> rfl

private theorem noFlag_ty {ty : Ty} (ok : ty.InRange) :
    ["nuw", "nsw", "disjoint", "exact"].contains ty.text = false := by
  have flags : ∀ text ∈ ["nuw", "nsw", "disjoint", "exact"], Ty.ofKeyword? text = none := by decide
  cases mem : ["nuw", "nsw", "disjoint", "exact"].contains ty.text with
  | false => rfl
  | true =>
    have known := Ty.ofKeyword?_text ok
    rw [flags ty.text (by simpa using mem)] at known
    cases known

private theorem siteReadable {site : CallSite}
    (tys : ∀ ty ∈ site.writtenRet m :: site.args.map (·.1), ty.InRange)
    (position : ∀ p ∈ (.ptr, site.callee) :: site.args,
      OperandKnown m f p.2 ∧ p.2.ReadableAt p.1)
    (direct : ∀ c, site.callee ≠ .constant c) : SiteReadable m f site where
  ret := tys _ List.mem_cons_self
  callee := (position _ List.mem_cons_self).1
  direct := direct
  args arg mem := by
    obtain ⟨known, fits⟩ := position arg (List.mem_cons_of_mem _ mem)
    exact ⟨tys _ (List.mem_cons_of_mem _ (List.mem_map_of_mem mem)), known, fits⟩

private theorem takes_returnNothing :
    Takes (readReturn m'.symbol?) [.word "void"] Over (Midway m f g defs uses) (.ret .void none)
      (Midway m f g defs uses) := by
  have behind : Takes (if Ty.void.isVoid then return Operation.ret .void none
      else return .ret .void (some (← readOperand m'.symbol? .void)) : Read Scope Operation) [] Over
      (Midway m f g defs uses) (.ret .void none) (Midway m f g defs uses) := takes_pure
  exact (@takes_ty _ _ .void trivial).bind behind fun r ended => ended.1

private theorem takes_returnValue (resolved : Resolved m m' f) {ty : Ty} {value : Operand}
    (ok : ty.InRange) (solid : ty ≠ .void) (known : OperandKnown m f value ∧ value.ReadableAt ty) :
    Takes (readReturn m'.symbol?) ([.word ty.text] ++ [operandToken m f value]) Over
      (Midway m f g defs (value.value?.toList ++ uses)) (.ret ty (some (value.reread f.number ty)))
      (Midway m f g defs uses) := by
  have other : ty.isVoid = false := by simpa [Ty.isVoid] using solid
  have operand : Takes (if ty.isVoid then return Operation.ret ty none
      else return .ret ty (some (← readOperand m'.symbol? ty)) : Read Scope Operation)
      [operandToken m f value] Over (Midway m f g defs (value.value?.toList ++ uses))
      (.ret ty (some (value.reread f.number ty))) (Midway m f g defs uses) := by
    rw [other, if_neg Bool.false_ne_true]
    exact ((takes_operand resolved known.1 known.2).imp fun _ _ => trivial).returns
  exact (takes_ty ok).bind operand fun r _ => noStar_operand _

/-- An operation is taken from its opcode and arguments; what it lacks then is its alignment. -/
abbrev OperationTaken (m m' : Module) (f g : Function) (defs uses : List ValueId) (op : Operation) :
    Prop :=
  Takes (readOperation m'.symbol? op.opcode) (argumentTokens m f op) Over
    (Midway m f g defs (op.mentions ++ uses)) ((op.reread m f.number).aligned none)
    (Midway m f g defs uses)

variable (resolved : Resolved m m' f) (labels : g.blocks.map (·.name) = f.blocks.map (·.name))

include resolved in
private theorem takes_load {ty : Ty} {ptr : Operand} (align : Option UInt32) (ok : ty.InRange)
    (known : OperandKnown m f ptr ∧ ptr.ReadableAt .ptr) :
    OperationTaken m m' f g defs uses (.load ty ptr align) := by
  rw [OperationTaken, Operation.mentions, Operation.operands, filterMap_value?_cons]
  refine (((takes_uneaten fun _ => id).bind ((takes_ty ok).bind (takes_expect.next
    (takes_pointer resolved known.1 known.2).returns) ?_) ?_).cast ?_).imp fun _ _ => trivial
  · exact fun r _ => by simp
  · exact fun r _ => ty_first_ne ok (by decide) _
  · simp [argumentTokens]

include resolved in
private theorem takes_store {ty : Ty} {value ptr : Operand} (align : Option UInt32)
    (ok : ty.InRange) (known : OperandKnown m f value ∧ value.ReadableAt ty)
    (known' : OperandKnown m f ptr ∧ ptr.ReadableAt .ptr) :
    OperationTaken m m' f g defs uses (.store ty value ptr align) := by
  rw [OperationTaken, Operation.mentions, Operation.operands, filterMap_value?_cons,
    filterMap_value?_cons]
  refine (((takes_uneaten fun _ => id).bind ((takes_ty ok).bind
    ((takes_operand resolved known.1 known.2).next (takes_expect.next
      (takes_pointer resolved known'.1 known'.2).returns)) ?_) ?_).cast ?_).imp fun _ _ => trivial
  · exact fun r _ => noStar_operand _
  · exact fun r _ => ty_first_ne ok (by decide) _
  · simp [argumentTokens]

include resolved in
private theorem takes_arith (op : Arith) {ty : Ty} {lhs rhs : Operand} (nuw nsw : Bool)
    (ok : ty.InRange) (left : OperandKnown m f lhs ∧ lhs.ReadableAt ty)
    (right : OperandKnown m f rhs ∧ rhs.ReadableAt ty) :
    OperationTaken m m' f g defs uses (.arith op ty lhs rhs nuw nsw) := by
  rw [OperationTaken, Operation.mentions, Operation.operands, filterMap_value?_cons,
    filterMap_value?_cons, Operation.opcode, readOperation_arith]
  refine ((takes_flags nuw nsw).bind (takes_pair resolved ok left right rfl) ?_).imp
    fun _ _ => trivial
  intro r _ text word
  obtain rfl : ty.text = text := Token.word.inj (Option.some.inj word)
  exact noFlag_ty ok

include resolved in
private theorem takes_icmp (pred : Comparison) {ty : Ty} {lhs rhs : Operand} (ok : ty.InRange)
    (left : OperandKnown m f lhs ∧ lhs.ReadableAt ty)
    (right : OperandKnown m f rhs ∧ rhs.ReadableAt ty) :
    OperationTaken m m' f g defs uses (.icmp pred ty lhs rhs) := by
  rw [OperationTaken, Operation.mentions, Operation.operands, filterMap_value?_cons,
    filterMap_value?_cons]
  refine (takes_word.next ?_).imp fun _ _ => trivial
  simp only [Comparison.ofMnemonic?_mnemonic]
  exact takes_pair resolved ok left right rfl

include resolved in
private theorem takes_convert (op : Conversion) {source target : Ty} {value : Operand}
    (ok : source.InRange)
    (ok' : target.InRange) (known : OperandKnown m f value ∧ value.ReadableAt source) :
    OperationTaken m m' f g defs uses (.convert op source value target) := by
  rw [OperationTaken, Operation.mentions, Operation.operands, filterMap_value?_cons,
    Operation.opcode, readOperation_conversion]
  refine ((takes_ty ok).bind ((takes_operand resolved known.1 known.2).next (takes_expect.next
    ((takes_ty ok').imp fun r ended => ended.1).returns)) ?_).cast ?_
  · exact fun r _ => noStar_operand _
  · simp [argumentTokens]

include resolved labels in
private theorem takes_invoke {site : CallSite} {normal unwind : BlockId}
    (ok : SiteReadable m f site) (there : BlockKnown f normal) (there' : BlockKnown f unwind) :
    OperationTaken m m' f g defs uses (.invoke site normal unwind) := by
  refine (((takes_callSite resolved ok).bind (takes_expect.next
    ((takes_label resolved labels there).next (takes_expect.next
      (takes_label resolved labels there').returns))) ?_).cast ?_).imp fun _ _ => trivial
  · exact fun r _ => by simp
  · simp [argumentTokens]

include resolved labels in
private theorem takes_condBr {cond : Operand} {thenDest elseDest : BlockId}
    (known : OperandKnown m f cond ∧ cond.ReadableAt .i1) (there : BlockKnown f thenDest)
    (there' : BlockKnown f elseDest) :
    OperationTaken m m' f g defs uses (.condBr cond thenDest elseDest) := by
  have bit : Ty.i1.InRange := ⟨by decide, by decide⟩
  rw [OperationTaken, Operation.mentions, Operation.operands, filterMap_value?_cons]
  refine ((takes_not_peeked ((takes_ty bit).bind ((takes_operand resolved known.1 known.2).next
    (takes_expect.next ((takes_label resolved labels there).next (takes_expect.next
      (takes_label resolved labels there').returns)))) ?_) ?_).cast ?_).imp fun _ _ => trivial
  · exact fun r _ => noStar_operand _
  · exact fun r _ => ty_first_ne bit (by decide) _
  · have text : Ty.i1.text = "i1" := by decide
    simp [argumentTokens, text]

include resolved labels in
theorem takes_operation {op : Operation} (known : OperationKnown m f op) (ok : op.Readable m) :
    OperationTaken m m' f g defs uses op := by
  obtain ⟨operands, targets⟩ := known
  obtain ⟨tys, positions, shaped⟩ := ok
  have position : ∀ p ∈ op.positions, OperandKnown m f p.2 ∧ p.2.ReadableAt p.1 := by
    intro p mem
    refine ⟨operands p.2 ?_, positions p mem⟩
    rw [← op.map_snd_positions]
    exact List.mem_map_of_mem mem
  cases op with
  | alloca ty align =>
    exact ((takes_ty (tys ty List.mem_cons_self)).imp fun r ended => ended.1).returns
  | load ty ptr align =>
    exact takes_load resolved align (tys ty List.mem_cons_self) (position (.ptr, ptr) List.mem_cons_self)
  | store ty value ptr align =>
    exact takes_store resolved align (tys ty List.mem_cons_self)
      (position (ty, value) List.mem_cons_self) (position (.ptr, ptr) (by simp [Operation.positions]))
  | arith op ty lhs rhs nuw nsw =>
    exact takes_arith resolved op nuw nsw (tys ty List.mem_cons_self)
      (position (ty, lhs) List.mem_cons_self) (position (ty, rhs) (by simp [Operation.positions]))
  | icmp pred ty lhs rhs =>
    exact takes_icmp resolved pred (tys ty List.mem_cons_self)
      (position (ty, lhs) List.mem_cons_self) (position (ty, rhs) (by simp [Operation.positions]))
  | convert op source value target =>
    exact takes_convert resolved op (tys source List.mem_cons_self)
      (tys target (by simp [Operation.tys])) (position (source, value) List.mem_cons_self)
  | phi ty incoming =>
    refine takes_phi resolved labels (tys ty List.mem_cons_self) shaped fun edge mem => ?_
    obtain ⟨known, fits⟩ := position (ty, edge.1) (List.mem_map.mpr ⟨edge, mem, rfl⟩)
    refine ⟨known, fits, targets edge.2 ?_⟩
    simpa [Operation.targets, Operation.successors] using ⟨edge.1, mem⟩
  | call site =>
    exact (takes_callSite resolved (siteReadable tys position shaped)).imp (fun r ended => ended.2.1)
      |>.returns
  | invoke site normal unwind =>
    exact takes_invoke resolved labels (siteReadable tys position shaped)
      (targets normal (by simp [Operation.targets, Operation.successors]))
      (targets unwind (by simp [Operation.targets, Operation.successors]))
  | br dest =>
    have there := targets dest (by simp [Operation.targets, Operation.successors])
    exact (takes_peeked (takes_label resolved labels there).returns).imp fun _ _ => trivial
  | condBr cond thenDest elseDest =>
    exact takes_condBr resolved labels (position (.i1, cond) List.mem_cons_self)
      (targets thenDest (by simp [Operation.targets, Operation.successors]))
      (targets elseDest (by simp [Operation.targets, Operation.successors]))
  | ret ty value =>
    cases value with
    | none =>
      obtain rfl := shaped.mpr rfl
      exact takes_returnNothing
    | some value =>
      have solid : ty ≠ .void := fun void => absurd (shaped.mp void) (by simp)
      exact takes_returnValue resolved (tys ty List.mem_cons_self) solid
        (position (ty, value) List.mem_cons_self)
  | unreachable => exact takes_pure

end

end BlockTally.Listing
