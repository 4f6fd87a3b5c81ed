import BlockTally.Listing.Body
import BlockTally.Proofs.Code.Built
import BlockTally.Proofs.Listing.Operations
import BlockTally.Proofs.Listing.Passed

/-! What reading an operand does to the table of values. A name that is not known yet is entered with
its first mention, and waits there until it is defined. Main statements: `readOperand_went`,
`readCallSite_went`, `defineLocal_defines`. -/
namespace BlockTally
open Listing Relation

namespace Operand

/-- The operand names an entry of a table. -/
def In (m : Module) (f : Function) : Operand → Prop
  | .value id => (f.value? id).isSome
  | .global id => (m.global? id).isSome
  | .function id => (m.function? id).isSome
  | .constant _ => True

end Operand

/-- The types that a text states for an operation. -/
def Operation.statedTys : Operation → List Ty
  | .alloca ty _ | .load ty .. | .store ty .. | .arith _ ty .. | .icmp _ ty .. | .phi ty _ => [ty]
  | .convert _ source _ target => [source, target]
  | .call site | .invoke site .. => site.ret :: site.args.map (·.1)
  | .ret ty _ => [ty]
  | .br .. | .condBr .. | .unreachable => []

/-- What is known of an operation that is read from a text. The text has a type of its own for the
condition of a branch, which is not kept. -/
structure Operation.FromText (m : Module) (f : Function) (op : Operation) : Prop where
  operands : ∀ p ∈ op.positions, p.2.In m f
  constants : (∀ cond thenDest elseDest, op ≠ .condBr cond thenDest elseDest) →
    ∀ p ∈ op.positions, p.2.StableAt p.1
  targets : ∀ id ∈ op.targets, (f.block? id).isSome
  tys : ∀ ty ∈ op.statedTys, ty.InRange
  shaped : op.Shaped

/-- The entries of the tables of `f` are entries of those of `g`. -/
structure Function.Within (f g : Function) : Prop where
  values : f.values.length ≤ g.values.length
  blocks : f.blocks.length ≤ g.blocks.length

section
variable {m : Module} {f g h : Function}

theorem Function.value?_isSome {id : ValueId} :
    (f.value? id).isSome = true ↔ id.index < f.values.length := by
  simp [Function.value?]

theorem Function.block?_isSome {id : BlockId} :
    (f.block? id).isSome = true ↔ id.index < f.blocks.length := by
  simp [Function.block?]

theorem Function.Within.refl (f : Function) : f.Within f := ⟨Nat.le_refl _, Nat.le_refl _⟩

theorem Function.Within.trans (first : f.Within g) (second : g.Within h) : f.Within h :=
  ⟨first.values.trans second.values, first.blocks.trans second.blocks⟩

theorem Operand.In.mono {o : Operand} (inside : o.In m f) (within : f.Within g) : o.In m g := by
  cases o with
  | value id => exact g.value?_isSome.mpr ((f.value?_isSome.mp inside).trans_le within.values)
  | global id => exact inside
  | function id => exact inside
  | constant c => trivial

theorem Function.Within.block (within : f.Within g) {id : BlockId}
    (inside : (f.block? id).isSome = true) : (g.block? id).isSome = true :=
  Function.block?_isSome.mpr ((Function.block?_isSome.mp inside).trans_le within.blocks)

theorem Operation.FromText.mono {op : Operation} (known : op.FromText m f)
    (within : f.Within g) : op.FromText m g where
  operands := fun p mem => (known.operands p mem).mono within
  constants := known.constants
  targets := fun id mem => within.block (known.targets id mem)
  tys := known.tys
  shaped := known.shaped

theorem Operation.FromText.aligned {op : Operation} (known : op.FromText m f)
    (align : Option UInt32) : (op.aligned align).FromText m f := by
  obtain ⟨operands, constants, targets, tys, shaped⟩ := known
  cases op with
  | alloca => exact ⟨operands, fun _ => constants (by simp), targets, tys, shaped⟩
  | load => exact ⟨operands, fun _ => constants (by simp), targets, tys, shaped⟩
  | store => exact ⟨operands, fun _ => constants (by simp), targets, tys, shaped⟩
  | _ => exact ⟨operands, constants, targets, tys, shaped⟩

end

namespace Listing
open Read

/-- A name that no value bears is entered, and its definition is awaited. -/
inductive Mention : Scope → Scope → Prop
  | enter (scope : Scope) {name : String} (free : name ∉ scope.function.values.map (·.name))
      (ty : Ty) (start : Nat) : Mention scope
        { function := { scope.function with
            values := scope.function.values ++ [⟨name, ty, .instruction⟩] }
          pending := scope.pending ++ [(name, start)] }

def Mentions : Scope → Scope → Prop := ReflTransGen Mention

/-- The result of an instruction is entered at its first mention, or its entry, which awaits it, gets
the type of the definition. -/
inductive Define (ty : Ty) : ValueId → Scope → Scope → Prop
  | enter (scope : Scope) {name : String} (free : name ∉ scope.function.values.map (·.name)) :
      Define ty ⟨scope.function.values.length⟩ scope
        { scope with function := { scope.function with
            values := scope.function.values ++ [⟨name, ty, .instruction⟩] } }
  | settle (scope : Scope) {id : ValueId} {v : Value} (found : scope.function.value? id = some v)
      (waits : v.name ∈ scope.pending.map (·.1)) : Define ty id scope
        { function := { scope.function with
            values := scope.function.values.set id.index { v with ty } }
          pending := scope.pending.filter (·.1 != v.name) }

section
variable {m : Module} {ts between rest : List Lexeme} {s s₁ s₂ s' : Scope}

theorem Mention.within (mention : Mention s s') : s.function.Within s'.function := by
  cases mention with
  | enter => exact ⟨by simp, Nat.le_refl _⟩

theorem Mentions.within (mentions : Mentions s s') : s.function.Within s'.function := by
  induction mentions with
  | refl => exact .refl _
  | tail _ mention ih => exact ih.trans mention.within

theorem Define.within {ty : Ty} {id : ValueId} (define : Define ty id s s') :
    s.function.Within s'.function := by
  cases define with
  | enter => exact ⟨by simp, Nat.le_refl _⟩
  | settle => exact ⟨by simp, Nat.le_refl _⟩

/-- Every name that is new in the table is a token. -/
def NamesFrom (ts : List Lexeme) (s s' : Scope) : Prop :=
  ∀ name ∈ s'.function.values.map (·.name), name ∈ s.function.values.map (·.name) ∨
    ∃ t ∈ ts, t.token = .localName name

theorem NamesFrom.refl (ts : List Lexeme) (s : Scope) : NamesFrom ts s s := fun _ => .inl

theorem NamesFrom.trans (first : NamesFrom ts s s₁) (second : NamesFrom between s₁ s₂)
    (inside : between ⊆ ts) : NamesFrom ts s s₂ := by
  intro name mem
  rcases second name mem with old | ⟨t, here, token⟩
  · exact first name old
  · exact .inr ⟨t, inside here, token⟩

/-- Reading goes from `ts` to `rest` and mentions values. -/
structure Went (ts : List Lexeme) (s : Scope) (rest : List Lexeme) (s' : Scope) : Prop where
  passes : Passes ts rest
  mentions : Mentions s s'
  names : NamesFrom ts s s'

theorem Went.still (passes : Passes ts rest) : Went ts s rest s := ⟨passes, .refl, .refl _ _⟩

theorem Went.trans (first : Went ts s between s₁) (second : Went between s₁ rest s₂) :
    Went ts s rest s₂ where
  passes := first.passes.trans second.passes
  mentions := ReflTransGen.trans first.mentions second.mentions
  names := first.names.trans second.names first.passes.subset

theorem Went.then (first : Went ts s between s') (second : Passes between rest) :
    Went ts s rest s' := first.trans (.still second)

theorem Went.before (second : Went between s rest s') (first : Passes ts between) :
    Went ts s rest s' := (Went.still first).trans second

theorem Went.within (went : Went ts s rest s') : s.function.Within s'.function :=
  went.mentions.within

/-! Operands. -/

theorem valueNamed?_eq_some {f : Function} {name : String} {id : ValueId}
    (named : f.valueNamed? name = some id) : ∃ v, f.value? id = some v ∧ v.name = name := by
  obtain ⟨k, found, rfl⟩ := Option.map_eq_some_iff.mp named
  exact named_of_findIdx? found

private theorem free_of_unnamed {f : Function} {name : String}
    (unnamed : f.valueNamed? name = none) :
    name ∉ f.values.map (·.name) := by
  rw [← Function.valueNamed?_isSome, unnamed]
  simp

private theorem names_of_entered {v : Value} {pending : List (String × Nat)} {t : Lexeme}
    (mem : t ∈ ts) (sign : t.token = .localName v.name) : NamesFrom ts s
      { function := { s.function with values := s.function.values ++ [v] }, pending } := by
  intro name new
  simp only [List.map_append, List.map_cons, List.map_nil, List.mem_append,
    List.mem_singleton] at new
  exact new.imp_right fun same => ⟨t, mem, by rw [sign, same]⟩

private theorem symbol?_in {name : String} (f : Function) {symbol : Symbol}
    (known : m.symbol? name = some symbol) :
    (∀ id, symbol = .global id → (Operand.global id).In m f) ∧
      ∀ id, symbol = .function id → (Operand.function id).In m f := by
  rw [Module.symbol?, Option.or_eq_some_iff] at known
  rcases known with known | ⟨-, known⟩
  · obtain ⟨id, named, rfl⟩ := Option.map_eq_some_iff.mp known
    obtain ⟨k, found, rfl⟩ := Option.map_eq_some_iff.mp named
    obtain ⟨inside, -, -⟩ := List.findIdx?_eq_some_iff_getElem.mp found
    refine ⟨?_, by simp⟩
    rintro _ ⟨⟩
    simp [Operand.In, Module.global?, inside]
  · obtain ⟨id, named, rfl⟩ := Option.map_eq_some_iff.mp known
    obtain ⟨k, found, rfl⟩ := Option.map_eq_some_iff.mp named
    obtain ⟨inside, -, -⟩ := List.findIdx?_eq_some_iff_getElem.mp found
    refine ⟨by simp, ?_⟩
    rintro _ ⟨⟩
    simp [Operand.In, Module.function?, inside]

/-- The operand is in the tables, and a constant fits its type. -/
def Fitting (m : Module) (f : Function) (ty : Ty) (o : Operand) : Prop :=
  o.In m f ∧ o.StableAt ty

/-- No constant begins with the sign of a name. -/
theorem readOperand_went {ty : Ty} {o : Operand}
    (whole : Reads (readOperand m.symbol? ty) ts s o rest s') :
    Went ts s rest s' ∧ Fitting m s'.function ty o ∧ ∀ c, o = .constant c →
      ∀ name, ts.head?.map Lexeme.token ≠ some (.localName name) ∧
        ts.head?.map Lexeme.token ≠ some (.globalName name) := by
  simp only [readOperand, reads_bind, reads_peek] at whole
  obtain ⟨_, _, _, ⟨rfl, rfl, rfl⟩, read⟩ := whole
  split at read
  · rename_i name start stop next
    simp only [reads_bind, reads_skip, reads_state] at read
    obtain ⟨_, _, _, ⟨rfl, rfl⟩, _, _, _, ⟨rfl, rfl, rfl⟩, last⟩ := read
    have front := passes_tail (congrArg (Option.map Lexeme.token) next) rfl
    split at last
    · rename_i id named
      obtain ⟨rfl, rfl, rfl⟩ := reads_pure.mp last
      obtain ⟨v, here, -⟩ := valueNamed?_eq_some named
      exact ⟨.still front, ⟨Option.isSome_of_mem here, trivial⟩, by simp⟩
    · rename_i unnamed
      simp only [reads_bind, reads_addLocal, reads_update, reads_pure] at last
      obtain ⟨_, _, _, ⟨-, rfl, rfl, rfl⟩, _, _, _, ⟨rfl, rfl⟩, rfl, rfl, rfl⟩ := last
      refine ⟨⟨front, .single (.enter _ (free_of_unnamed unnamed) ty start), ?_⟩, ⟨?_, trivial⟩,
        by simp⟩
      · exact names_of_entered (List.mem_of_mem_head? next) rfl
      · simp [Operand.In, Function.value?]
  · rename_i name start stop next
    obtain ⟨_, _, _, skipped, last⟩ := reads_bind.mp read
    obtain ⟨rfl, rfl⟩ := reads_skip.mp skipped
    have front := passes_tail (congrArg (Option.map Lexeme.token) next) rfl
    split at last
    · rename_i id known
      obtain ⟨rfl, rfl, rfl⟩ := reads_pure.mp last
      exact ⟨.still front, ⟨(symbol?_in _ known).1 id rfl, trivial⟩, by simp⟩
    · rename_i id known
      obtain ⟨rfl, rfl, rfl⟩ := reads_pure.mp last
      exact ⟨.still front, ⟨(symbol?_in _ known).2 id rfl, trivial⟩, by simp⟩
    · exact absurd last reads_refuseAt
  · rename_i no_local no_global
    obtain ⟨found, _, _, constant, last⟩ := reads_bind.mp read
    obtain ⟨front, rfl, stable⟩ := readConstant?_passes constant
    split at last
    · rename_i c
      obtain ⟨rfl, rfl, rfl⟩ := reads_pure.mp last
      refine ⟨.still front, ⟨trivial, stable c rfl⟩, fun _ _ name => ⟨?_, ?_⟩⟩
      · intro next
        obtain ⟨⟨_, start, stop⟩, here, rfl⟩ := Option.map_eq_some_iff.mp next
        exact no_local name start stop here
      · intro next
        obtain ⟨⟨_, start, stop⟩, here, rfl⟩ := Option.map_eq_some_iff.mp next
        exact no_global name start stop here
    · exact absurd last reads_unexpected

theorem Fitting.mono {f g : Function} {ty : Ty} {o : Operand} (fits : Fitting m f ty o)
    (within : f.Within g) : Fitting m g ty o := ⟨fits.1.mono within, fits.2⟩

private theorem readBlock_went {id : BlockId} (read : Reads readBlock ts s id rest s') :
    Went ts s rest s' ∧ (s'.function.block? id).isSome := by
  simp only [readBlock, reads_bind, reads_place, reads_state] at read
  obtain ⟨_, _, _, ⟨rfl, rfl, rfl⟩, name, _, _, sign, _, _, _, ⟨rfl, rfl, rfl⟩, read⟩ := read
  obtain ⟨front, rfl⟩ := demand_passes (fun token _ known => by
    cases token with
    | localName name => rfl
    | _ => cases known) sign
  split at read
  · rename_i id named
    obtain ⟨rfl, rfl, rfl⟩ := reads_pure.mp read
    obtain ⟨k, found, rfl⟩ := Option.map_eq_some_iff.mp named
    obtain ⟨inside, -, -⟩ := List.findIdx?_eq_some_iff_getElem.mp found
    exact ⟨.still front, Function.block?_isSome.mpr inside⟩
  · exact absurd read reads_refuseAt

theorem readLabel_went {id : BlockId} (read : Reads readLabel ts s id rest s') :
    Went ts s rest s' ∧ (s'.function.block? id).isSome := by
  obtain ⟨_, _, _, word, block⟩ := reads_bind.mp read
  obtain ⟨front, rfl⟩ := expect_passes rfl word
  obtain ⟨went, inside⟩ := readBlock_went block
  exact ⟨went.before front, inside⟩

theorem readPointer_went {o : Operand} (read : Reads (readPointer m.symbol?) ts s o rest s') :
    Went ts s rest s' ∧ Fitting m s'.function .ptr o := by
  obtain ⟨_, _, _, ty, operand⟩ := reads_bind.mp read
  obtain ⟨front, rfl, -⟩ := readTy_passes ty
  obtain ⟨went, fits, -⟩ := readOperand_went operand
  exact ⟨went.before front, fits⟩

/-- A loop that collects what it reads behind commas. -/
theorem list_went {α : Type} {pick : List α → Lexeme → List Lexeme → Option Unit}
    {item : Read Scope α} (Fact : Function → α → Prop) {all found : List α}
    (flat : ∀ all t ts b, pick all t ts = some b → isFlat t.token = true)
    (mono : ∀ f g a, f.Within g → Fact f a → Fact g a)
    (once : ∀ ts s a rest s', Reads item ts s a rest s' → Went ts s rest s' ∧ Fact s'.function a)
    (start : ∀ a ∈ all, Fact s.function a) (nonempty : all ≠ [])
    (read : Reads (whileNext pick (fun _ all => return all ++ [← item]) all) ts s found rest s') :
    Went ts s rest s' ∧ (∀ a ∈ found, Fact s'.function a) ∧ found ≠ [] := by
  refine (reads_whileNext.mp read).preserves
    (P := fun all left now => Went ts s left now ∧ (∀ a ∈ all, Fact now.function a) ∧ all ≠ []) ?_
    ⟨.still (.refl _), start, nonempty⟩
  rintro all t more now b found left next picked ⟨went, each, some⟩ round
  obtain ⟨a, _, _, one, done⟩ := reads_bind.mp round
  obtain ⟨rfl, rfl, rfl⟩ := reads_pure.mp done
  obtain ⟨further, fact⟩ := once _ _ _ _ _ one
  refine ⟨went.trans (further.before (.single rfl (flat _ _ _ _ picked))), ?_, by simp⟩
  intro x mem
  rcases List.mem_append.mp mem with old | new
  · exact mono _ _ _ further.within (each x old)
  · rwa [List.mem_singleton.mp new]

def ArgFitting (m : Module) (f : Function) (arg : Ty × Operand) : Prop :=
  arg.1.InRange ∧ Fitting m f arg.1 arg.2

private theorem readArg_went {arg : Ty × Operand}
    (read : Reads (readArg m.symbol?) ts s arg rest s') :
    Went ts s rest s' ∧ ArgFitting m s'.function arg := by
  simp only [readArg, reads_bind, reads_pure] at read
  obtain ⟨ty, _, _, type, _, _, _, attrs, o, _, _, operand, rfl, rfl, rfl⟩ := read
  obtain ⟨first, rfl, inRange⟩ := readTy_passes type
  obtain ⟨second, rfl⟩ := skipAttributes_passes attrs
  obtain ⟨went, fits, -⟩ := readOperand_went operand
  exact ⟨went.before (first.trans second), inRange, fits⟩

theorem ArgFitting.mono {f g : Function} {arg : Ty × Operand} (within : f.Within g)
    (fits : ArgFitting m f arg) : ArgFitting m g arg := ⟨fits.1, fits.2.mono within⟩

private theorem readArgs_went {args : List (Ty × Operand)}
    (whole : Reads (readArgs m.symbol?) ts s args rest s') :
    Went ts s rest s' ∧ ∀ arg ∈ args, ArgFitting m s'.function arg := by
  obtain ⟨empty, _, _, eaten, read⟩ := reads_bind.mp whole
  obtain ⟨front, rfl⟩ := eat_passes rfl eaten
  split at read
  · obtain ⟨rfl, rfl, rfl⟩ := reads_pure.mp read
    exact ⟨.still front, by simp⟩
  · obtain ⟨arg, _, _, first, more⟩ := reads_bind.mp read
    obtain ⟨went, fits⟩ := readArg_went first
    obtain ⟨found, _, _, others, behind⟩ := reads_bind.mp more
    obtain ⟨further, each, -⟩ := list_went (ArgFitting m) (fun _ t _ _ picked => by
        have comma : t.token = .punct .comma := by
          by_contra other
          simp [other] at picked
        rw [comma]
        rfl) (fun _ _ _ => ArgFitting.mono) (fun _ _ _ _ _ => readArg_went)
      (by simpa using fits) (by simp) others
    obtain ⟨closed, _, _, last, done⟩ := reads_bind.mp behind
    obtain ⟨paren, rfl⟩ := eat_passes rfl last
    split at done
    · obtain ⟨rfl, rfl, rfl⟩ := reads_pure.mp done
      exact ⟨((went.trans further).then paren).before front, each⟩
    · exact absurd done reads_unexpected

structure SiteFitting (m : Module) (f : Function) (site : CallSite) : Prop where
  ret : site.ret.InRange
  callee : Fitting m f .ptr site.callee
  direct : ∀ c, site.callee ≠ .constant c
  args : ∀ arg ∈ site.args, ArgFitting m f arg

/-- A call site from a callee on that is known to have a name. -/
def readCall (m : Module) (ret : Ty) : Read Scope CallSite := do
  let callee ← readOperand m.symbol? .ptr
  expect (.punct .lparen)
  let args ← readArgs m.symbol?
  whileNext (fun _ t _ => if t.token = .attrRef then some () else none) (fun _ _ => return ()) ()
  return { ret, callee, args }

private theorem readCall_went {ret : Ty} (inRange : ret.InRange) {site : CallSite} {token : Token}
    (next : ts.head?.map Lexeme.token = some token)
    (sign : ∃ name, token = .localName name ∨ token = .globalName name)
    (read : Reads (readCall m ret) ts s site rest s') :
    Went ts s rest s' ∧ SiteFitting m s'.function site := by
  simp only [readCall, reads_bind, reads_pure] at read
  obtain ⟨callee, _, _, operand, _, _, _, paren, args, _, _, list, _, _, _, attrs, rfl, rfl, rfl⟩ :=
    read
  obtain ⟨first, fits, constant⟩ := readOperand_went operand
  obtain ⟨opened, rfl⟩ := expect_passes rfl paren
  obtain ⟨second, each⟩ := readArgs_went list
  obtain ⟨groups, rfl⟩ := whileNext_passes (fun _ t _ _ picked => by
      have group : t.token = .attrRef := by
        by_contra other
        simp [other] at picked
      rw [group]
      rfl) (fun _ _ _ _ _ _ _ _ _ round => by
      obtain ⟨-, rfl, rfl⟩ := reads_pure.mp round
      exact ⟨.refl _, rfl⟩) attrs
  refine ⟨((first.then opened).trans second).then groups, inRange, fits.mono second.within, ?_, each⟩
  obtain ⟨name, rfl | rfl⟩ := sign
  · exact fun c same => (constant c same name).1 next
  · exact fun c same => (constant c same name).2 next

private theorem readSite_went {ret : Ty} (inRange : ret.InRange) {site : CallSite}
    (whole : Reads (readSite m ret) ts s site rest s') :
    Went ts s rest s' ∧ SiteFitting m s'.function site := by
  simp only [readSite, reads_bind, reads_peekToken] at whole
  obtain ⟨_, _, _, ⟨rfl, rfl, rfl⟩, choice⟩ := whole
  split at choice
  · rename_i name next
    exact readCall_went inRange next ⟨name, .inl rfl⟩ choice
  · rename_i name next
    exact readCall_went inRange next ⟨name, .inr rfl⟩ choice
  · obtain ⟨_, _, _, refused, -⟩ := reads_bind.mp choice
    exact absurd refused reads_unexpected

theorem readCallSite_went {site : CallSite} (whole : Reads (readCallSite m.symbol?) ts s site rest s') :
    Went ts s rest s' ∧ SiteFitting m s'.function site := by
  rw [readCallSite_eq] at whole
  obtain ⟨_, _, _, attrs, more⟩ := reads_bind.mp whole
  obtain ⟨first, rfl⟩ := skipAttributes_passes attrs
  obtain ⟨ret, _, _, type, behind⟩ := reads_bind.mp more
  obtain ⟨second, rfl, inRange⟩ := readTy_passes type
  simp only [reads_bind, reads_peekToken] at behind
  obtain ⟨_, _, _, ⟨rfl, rfl, rfl⟩, choice⟩ := behind
  split at choice
  · simp only [reads_bind] at choice
    obtain ⟨_, _, _, parens, _, _, _, star, read⟩ := choice
    obtain ⟨third, rfl⟩ := parens_passes parens
    obtain ⟨fourth, rfl⟩ := eat_passes rfl star
    obtain ⟨went, fits⟩ := readSite_went inRange read
    exact ⟨went.before (((first.trans second).trans third).trans fourth), fits⟩
  · obtain ⟨went, fits⟩ := readSite_went inRange choice
    exact ⟨went.before (first.trans second), fits⟩

theorem readEdge_went {ty : Ty} {edge : Operand × BlockId}
    (read : Reads (readEdge m.symbol? ty) ts s edge rest s') :
    Went ts s rest s' ∧ Fitting m s'.function ty edge.1 ∧ (s'.function.block? edge.2).isSome := by
  simp only [readEdge, reads_bind, reads_pure] at read
  obtain ⟨_, _, _, opening, o, _, _, operand, _, _, _, comma, id, _, _, block, _, _, _, closing, rfl,
    rfl, rfl⟩ := read
  obtain ⟨opened, rfl⟩ := expect_passes rfl opening
  obtain ⟨first, fits, -⟩ := readOperand_went operand
  obtain ⟨between, rfl⟩ := expect_passes rfl comma
  obtain ⟨second, inside⟩ := readBlock_went block
  obtain ⟨closed, rfl⟩ := expect_passes rfl closing
  exact ⟨(((first.then between).trans second).then closed).before opened,
    fits.mono second.within, inside⟩

theorem readFlags_passes {σ : Type} {s s' : σ} {flags : Bool × Bool}
    (read : Reads readFlags ts s flags rest s') : Passes ts rest ∧ s' = s := by
  refine whileNext_passes ?_ ?_ read
  · intro _ t _ _ picked
    cases token : t.token with
    | word text => rfl
    | _ => simp [token] at picked
  · intro _ _ _ _ _ _ _ _ _ round
    obtain ⟨-, rfl, rfl⟩ := reads_pure.mp round
    exact ⟨.refl _, rfl⟩

/-! Results. -/

theorem any_pending {name : String} {pending : List (String × Nat)} :
    pending.any (·.1 == name) = true ↔ name ∈ pending.map (·.1) := by
  simp

theorem defineLocal_defines {start : Nat} {name : String} {ty : Ty} {id : ValueId}
    (whole : Reads (defineLocal start name ty) ts s id rest s') :
    rest = ts ∧ Define ty id s s' ∧ ∀ t : Lexeme, t.token = .localName name →
      NamesFrom [t] s s' := by
  simp only [defineLocal, reads_bind, reads_state] at whole
  obtain ⟨_, _, _, ⟨rfl, rfl, rfl⟩, read⟩ := whole
  split at read
  · rename_i unnamed
    obtain ⟨-, rfl, rfl, rfl⟩ := reads_addLocal.mp read
    exact ⟨rfl, .enter _ (free_of_unnamed unnamed),
      fun t sign => names_of_entered (List.mem_singleton_self t) sign⟩
  · rename_i found named
    split at read
    · exact absurd read reads_refuseAt
    · rename_i waits
      obtain ⟨v, here, rfl⟩ := valueNamed?_eq_some named
      simp only [Function.retype, here, Option.map_some, reads_bind, reads_update, reads_pure] at read
      obtain ⟨_, _, _, ⟨rfl, rfl⟩, rfl, rfl, rfl⟩ := read
      refine ⟨rfl, .settle _ here (any_pending.mp (by simpa using waits)), fun _ _ name mem => .inl ?_⟩
      rwa [Function.names_retyped here] at mem

end

end Listing

end BlockTally
