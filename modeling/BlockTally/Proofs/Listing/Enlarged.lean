import BlockTally.Proofs.Listing.Rendered

/-! The text of code whose tables have grown: what has a text keeps it. Main statement:
`instructionText_kept`. -/
namespace BlockTally
open Listing

/-- Whatever is there at first is still there then. -/
def Kept {α : Type} (x y : Option α) : Prop := ∀ a, x = some a → y = some a

section
variable {α β : Type}

theorem Kept.refl (x : Option α) : Kept x x := fun _ => id

theorem Kept.bind {x y : Option α} {next next' : α → Option β} (first : Kept x y)
    (rest : ∀ a, Kept (next a) (next' a)) : Kept (x >>= next) (y >>= next') := by
  intro b made
  obtain ⟨a, here, there⟩ := Option.bind_eq_some_iff.mp made
  exact Option.bind_eq_some_iff.mpr ⟨a, first a here, rest a b there⟩

theorem Kept.map {x y : Option α} (kept : Kept x y) (change : α → β) :
    Kept (change <$> x) (change <$> y) := by
  intro b made
  obtain ⟨a, here, rfl⟩ := Option.map_eq_some_iff.mp made
  exact Option.map_eq_some_iff.mpr ⟨a, kept a here, rfl⟩

theorem Kept.mapM {text text' : α → Option β} : ∀ {xs : List α},
    (∀ x ∈ xs, Kept (text x) (text' x)) → Kept (xs.mapM text) (xs.mapM text')
  | [], _ => .refl _
  | x :: xs, kept => by
    obtain ⟨first, rest⟩ := List.forall_mem_cons.mp kept
    simp only [List.mapM_cons]
    exact first.bind fun _ => (Kept.mapM rest).bind fun _ => .refl _

end

/-- The tables have only grown: an entry is still at its place, and nothing that a text shows of it
has changed. -/
structure Enlarged (m : Module) (f : Function) (m' : Module) (f' : Function) : Prop where
  globals : ∀ id g, m.global? id = some g → m'.global? id = some g
  functions : ∀ id g, m.function? id = some g →
    ∃ g', m'.function? id = some g' ∧ g'.name = g.name ∧ g'.signature = g.signature
  values : ∀ id v, f.value? id = some v → f'.value? id = some v
  blocks : ∀ id b, f.block? id = some b → ∃ b', f'.block? id = some b' ∧ b'.name = b.name

section
variable {m m' : Module} {f f' : Function}

private theorem valueText_kept (grown : Enlarged m f m' f') (id : ValueId) :
    Kept (valueText f id) (valueText f' id) :=
  Kept.bind (grown.values id) fun _ => .refl _

private theorem blockText_kept (grown : Enlarged m f m' f') (id : BlockId) :
    Kept (blockText f id) (blockText f' id) := by
  intro text made
  obtain ⟨b, here, rest⟩ := Option.bind_eq_some_iff.mp made
  obtain ⟨b', there, name⟩ := grown.blocks id b here
  exact Option.bind_eq_some_iff.mpr ⟨b', there, by rwa [name]⟩

private theorem labelText_kept (grown : Enlarged m f m' f') (id : BlockId) :
    Kept (labelText f id) (labelText f' id) :=
  (blockText_kept grown id).bind fun _ => .refl _

theorem operandText_kept (grown : Enlarged m f m' f') (o : Operand) :
    Kept (operandText m f o) (operandText m' f' o) := by
  cases o with
  | value id => exact valueText_kept grown id
  | global id => exact Kept.bind (grown.globals id) fun _ => .refl _
  | function id =>
    intro text made
    obtain ⟨g, here, rest⟩ := Option.bind_eq_some_iff.mp made
    obtain ⟨g', there, name, -⟩ := grown.functions id g here
    exact Option.bind_eq_some_iff.mpr ⟨g', there, by rwa [name]⟩
  | constant c => exact .refl _

private theorem pairText_kept (grown : Enlarged m f m' f') (ty : Ty) (lhs rhs : Operand) :
    Kept (pairText m f ty lhs rhs) (pairText m' f' ty lhs rhs) :=
  (operandText_kept grown lhs).bind fun _ => (operandText_kept grown rhs).bind fun _ => .refl _

private theorem calleeTyText_kept (grown : Enlarged m f m' f') (site : CallSite) :
    Kept (calleeTyText m site) (calleeTyText m' site) := by
  unfold calleeTyText
  cases site.callee with
  | function id =>
    intro text made
    obtain ⟨g, here, rest⟩ := Option.bind_eq_some_iff.mp made
    obtain ⟨g', there, -, signature⟩ := grown.functions id g here
    have variadic : g'.variadic = g.variadic := congrArg Signature.variadic signature
    exact Option.bind_eq_some_iff.mpr ⟨g', there, by rwa [variadic, signature]⟩
  | _ => exact .refl _

private theorem callSiteText_kept (grown : Enlarged m f m' f') (site : CallSite) :
    Kept (callSiteText m f site) (callSiteText m' f' site) := by
  have args : ∀ arg ∈ site.args,
      Kept (do return arg.1.text ++ " " ++ (← operandText m f arg.2))
        (do return arg.1.text ++ " " ++ (← operandText m' f' arg.2)) :=
    fun arg _ => (operandText_kept grown arg.2).bind fun _ => .refl _
  exact (Kept.mapM args).bind fun _ => (calleeTyText_kept grown site).bind fun _ =>
    (operandText_kept grown site.callee).bind fun _ => .refl _

private theorem edgeText_kept (grown : Enlarged m f m' f') (edge : Operand × BlockId) :
    Kept (edgeText m f edge) (edgeText m' f' edge) :=
  (operandText_kept grown edge.1).bind fun _ => (blockText_kept grown edge.2).bind fun _ => .refl _

theorem operationText_kept (grown : Enlarged m f m' f') (op : Operation) :
    Kept (operationText m f op) (operationText m' f' op) := by
  have operand := operandText_kept grown
  have label := labelText_kept grown
  cases op with
  | alloca | unreachable => exact .refl _
  | load _ ptr => exact (operand ptr).bind fun _ => .refl _
  | store _ value ptr => exact (operand value).bind fun _ => (operand ptr).bind fun _ => .refl _
  | arith _ ty lhs rhs | icmp _ ty lhs rhs =>
    exact (pairText_kept grown ty lhs rhs).bind fun _ => .refl _
  | convert _ _ value => exact (operand value).bind fun _ => .refl _
  | phi _ incoming =>
    exact (Kept.mapM fun edge _ => edgeText_kept grown edge).bind fun _ => .refl _
  | call site => exact (callSiteText_kept grown site).bind fun _ => .refl _
  | invoke site normal unwind =>
    exact (callSiteText_kept grown site).bind fun _ => (label normal).bind fun _ =>
      (label unwind).bind fun _ => .refl _
  | br dest => exact (label dest).bind fun _ => .refl _
  | condBr cond thenDest elseDest =>
    exact (operand cond).bind fun _ => (label thenDest).bind fun _ =>
      (label elseDest).bind fun _ => .refl _
  | ret _ value =>
    cases value with
    | none => exact .refl _
    | some value => exact (operand value).bind fun _ => .refl _

theorem instructionText_kept (grown : Enlarged m f m' f') (inst : Instruction) :
    Kept (instructionText m f inst) (instructionText m' f' inst) := by
  have result : Kept (resultText f inst.result) (resultText f' inst.result) := by
    cases inst.result with
    | none => exact .refl _
    | some id => exact (valueText_kept grown id).map _
  rw [instructionText_eq, instructionText_eq]
  exact result.bind fun _ => (operationText_kept grown inst.op).map _

end

end BlockTally
