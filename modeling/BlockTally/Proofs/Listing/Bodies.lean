import BlockTally.Proofs.Listing.Lines

/-! Reading a whole body. Main statement: `takes_body`. -/
namespace BlockTally

/-- The function before its body is read: what the first line of the listing says of it. -/
def Function.opened (m : Module) (f : Function) : Function :=
  { f.reread m with blocks := [], values := f.params.map (f.entry (f.writtenTy m)) }

namespace Listing
open Read

theorem blockNamed?_isSome {f : Function} {name : String} :
    (f.blockNamed? name).isSome = true ↔ name ∈ f.blocks.map (·.name) := by
  rw [Function.blockNamed?, Option.isSome_map, List.findIdx?_isSome]
  simp only [List.any_eq_true, beq_iff_eq, List.mem_map]

private theorem reads_addLabels (ts : List Lexeme) : ∀ {found : List (String × Nat)} {s : Scope},
    (s.function.blocks.map (·.name) ++ found.map (·.1)).Nodup →
    Reads (addLabels found) ts s () ts { s with function := { s.function with
      blocks := s.function.blocks ++ found.map fun label => { name := label.1 } } }
  | [], s, _ => by
    rw [addLabels, List.map_nil, List.append_nil]
    exact reads_pure.mpr ⟨rfl, rfl, rfl⟩
  | (name, start) :: rest, s, distinct => by
    have fresh : (s.function.blockNamed? name).isSome = false := by
      rw [← Bool.not_eq_true, blockNamed?_isSome]
      intro mem
      exact (List.nodup_append.mp distinct).2.2 name mem name (by simp) rfl
    have distinct' : ((s.function.addBlock name).2.blocks.map (·.name) ++ rest.map (·.1)).Nodup := by
      simpa [Function.addBlock] using distinct
    have more := reads_addLabels ts (s := { s with function := (s.function.addBlock name).2 }) distinct'
    simp only [addLabels, reads_bind, reads_state]
    refine ⟨_, _, _, ⟨rfl, rfl, rfl⟩, ?_⟩
    simp only [fresh, Bool.false_eq_true, if_false, reads_bind, reads_update]
    refine ⟨(), _, _, ⟨rfl, rfl⟩, ?_⟩
    simpa [Function.addBlock] using more

section
variable {m m' : Module} {f : Function} {entry : Block} {blocks : List Block}

/-- The tokens of a body up to its closing brace. -/
def bodyTokens (m : Module) (f : Function) (entry : Block) (blocks : List Block) : List Token :=
  blockLabelTokens true entry ++ linesTokens m f (innerLines entry blocks)

theorem bodyTokens_eq (m : Module) (f : Function) (entry : Block) (blocks : List Block) :
    bodyTokens m f entry blocks =
      blockTokens m f true entry ++ blocks.flatMap (blockTokens m f false) := by
  have one : ∀ insts : List Instruction, linesTokens m f (insts.map Line.instruction) =
      insts.flatMap (instructionTokens m f) := by
    intro insts
    rw [linesTokens, List.flatMap_map]
    congr 1
    funext inst
    exact (instructionTokens_eq m f inst).symm
  have rest : linesTokens m f (blocks.flatMap fun b => .label b.name :: b.insts.map .instruction) =
      blocks.flatMap (blockTokens m f false) := by
    rw [linesTokens, List.flatMap_assoc]
    congr 1
    funext b
    have block := one b.insts
    rw [linesTokens] at block
    rw [List.flatMap_cons, block]
    rfl
  rw [bodyTokens, innerLines, linesTokens, List.flatMap_append, ← linesTokens, ← linesTokens, one,
    rest, blockTokens, List.append_assoc]

/-- What the text of a body takes for granted. -/
structure BodyReadable (m m' : Module) (f : Function) : Prop where
  resolved : Resolved m m' f
  /-- Every value is defined somewhere. -/
  settled : ∀ id ∈ f.mentions, id ∈ f.params ++ f.results
  insts : ∀ inst ∈ f.instructions, InstructionReadable m f inst
  entry : ∀ b ∈ f.blocks.head?, b.insts ≠ []

theorem filling_opened (body : f.blocks = entry :: blocks) :
    Filling m f (f.opened m) (f.blocks.map (·.reread m f.number)) 0 (innerLines entry blocks)
      { function := { f.opened m with blocks := f.blocks.map emptied } } := by
  refine ⟨⟨rfl, [], [], ?_, ?_, ?_⟩, ?_, ?_, ?_⟩
  · exact mentions_inner body
  · exact results_inner body
  · refine ⟨?_, ⟨f.writtenTy m, rfl, fun _ _ => rfl⟩, ?_⟩
    · intro id mem
      simpa using mem
    · have none_waits : f.params.filter (· ∉ f.params ++ []) = [] := by
        rw [List.append_nil, List.filter_eq_nil_iff]
        intro id mem
        simp [mem]
      rw [List.foldl_nil, none_waits]
      rfl
  · simp [emptied]
  · simp [names_inner, body]
  · rw [body]
    exact placed_inner entry blocks

theorem Filling.finished {scope : Scope} {current : Nat} {target : List Block}
    (filling : Filling m f (f.opened m) target current [] scope)
    (settled : ∀ id ∈ f.mentions, id ∈ f.params ++ f.results) :
    scope.function = { f.reread m with blocks := target } ∧ scope.pending = [] := by
  obtain ⟨⟨frame, past, done, split, results, entered⟩, -, -, placed⟩ := filling
  obtain rfl : past = f.mentions := by simpa using split
  obtain rfl : done = f.results := by simpa using results
  have known : ∀ id ∈ f.order, id ∈ f.params ++ f.results := by
    intro id mem
    rcases Function.mem_order.mp mem with param | mention
    · exact List.mem_append_left _ param
    · exact settled id mention
  obtain ⟨-, ⟨tys, values, final⟩, pending⟩ := entered
  have table : scope.function.values = f.order.map (f.entry (f.writtenTy m)) := by
    refine values.trans (List.map_congr_left fun id mem => ?_)
    rw [Function.entry, Function.entry, final id (known id mem)]
  constructor
  · rw [frame, table]
    rw [show scope.function.blocks = target from placed]
    rfl
  · have none_waits : f.order.filter (· ∉ f.params ++ f.results) = [] := by
      rw [List.filter_eq_nil_iff]
      intro id mem
      rw [decide_eq_true_eq, not_not]
      exact known id mem
    have empty : scope.pending.map (·.1) = [] := by
      rw [pending, ← Function.order, none_waits]
      rfl
    exact List.map_eq_nil_iff.mp empty

/-- A body after its labels. -/
def readLines (m : Module) : Read Scope Unit := do
  let _ ← fillBlocks m.symbol?
  if !(← eat (.punct .rbrace)) then refuse .unterminatedBody
  match (← state).pending.head? with
  | none => return ()
  | some (name, start) => refuseAt (some start) (.undefinedValue name)

theorem readBody_eq (m : Module) : readBody m.symbol? = (do
    match ← peekToken with
    | some (.label _) =>
      addLabels (labels (← ahead))
      skip
      readLines m
    | _ =>
      update fun scope => { scope with function := (scope.function.addBlock "").2 }
      addLabels (labels (← ahead))
      readLines m) := rfl

variable (ok : BodyReadable m m' f) (body : f.blocks = entry :: blocks)
include ok body

private theorem takes_readLines :
    Takes (readLines m') (linesTokens m f (innerLines entry blocks) ++ [.punct .rbrace]) Anything
      (Filling m f (f.opened m) (f.blocks.map (·.reread m f.number)) 0 (innerLines entry blocks)) ()
      (fun scope => scope.function = f.reread m) := by
  have insts : ∀ inst, .instruction inst ∈ innerLines entry blocks →
      InstructionReadable m f inst := by
    intro inst mem
    refine ok.insts inst ?_
    rw [Function.instructions, body, List.flatMap_cons]
    simpa [innerLines] using mem
  refine (takes_lines ok.resolved insts).bind ?_ fun _ _ => rfl
  intro ts rest s same _ filling
  obtain ⟨l, rfl, closes⟩ := List.map_eq_singleton_iff.mp same
  obtain ⟨function, pending⟩ := filling.finished ok.settled
  refine ⟨s, ?_, function⟩
  simp only [reads_bind, reads_eat]
  refine ⟨true, rest, s, ⟨by simp [closes], rfl, rfl⟩, ?_⟩
  simp only [Bool.not_true, Bool.false_eq_true, if_false, reads_bind, reads_state]
  refine ⟨_, _, _, ⟨rfl, rfl, rfl⟩, ?_⟩
  rw [pending]
  exact reads_pure.mpr ⟨rfl, rfl, rfl⟩

omit ok body in
/-- The labels behind the entry block's own are those of the other blocks. -/
theorem labels_inner {ts rest : List Lexeme} {closing : Lexeme}
    (lines : ts.map (·.token) = linesTokens m f (innerLines entry blocks))
    (closes : closing.token = .punct .rbrace) :
    (labels (ts ++ closing :: rest)).map (·.1) = blocks.map (·.name) := by
  have flat : ∀ t ∈ ts, t.token ≠ .punct .rbrace := by
    intro t mem
    have token : t.token ∈ linesTokens m f (innerLines entry blocks) :=
      lines ▸ List.mem_map_of_mem mem
    exact (linesTokens_flat m f _ _ token).2
  rw [map_fst_labels flat closes, lines, filterMap_labelOf?, names_inner]

omit ok body in
/-- Labels add the blocks that are not there yet. -/
theorem reads_addRest (distinct : (f.blocks.map (·.name)).Nodup) (before : List Block)
    {after : List Block} (split : f.blocks = before ++ after) {found : List (String × Nat)}
    (names : found.map (·.1) = after.map (·.name)) (ts : List Lexeme) :
    Reads (addLabels found) ts { function := { f.opened m with blocks := before.map emptied } } () ts
      { function := { f.opened m with blocks := f.blocks.map emptied } } := by
  have distinct' : ((before.map emptied).map (·.name) ++ found.map (·.1)).Nodup := by
    rw [split, List.map_append] at distinct
    rw [names, List.map_map]
    exact distinct
  have each := congrArg (List.map fun name => ({ name } : Block)) names
  rw [List.map_map, List.map_map] at each
  have added := reads_addLabels ts
    (s := { function := { f.opened m with blocks := before.map emptied } }) distinct'
  have same : before.map emptied ++ found.map (fun label => ({ name := label.1 } : Block)) =
      f.blocks.map emptied := by
    rw [split, List.map_append]
    exact congrArg (before.map emptied ++ ·) each
  rw [← same]
  exact added

omit ok in
/-- To read a body is to read its lines when there is a block for each label. -/
theorem reads_readBody (distinct : (f.blocks.map (·.name)).Nodup) (solid : entry.insts ≠ [])
    {top inner rest left : List Lexeme} {closing : Lexeme} {u : Unit} {s : Scope}
    (label : top.map (·.token) = blockLabelTokens true entry)
    (lines : inner.map (·.token) = linesTokens m f (innerLines entry blocks))
    (closes : closing.token = .punct .rbrace) :
    Reads (readBody m'.symbol?) (top ++ (inner ++ closing :: rest)) { function := f.opened m } u left s ↔
      Reads (readLines m') (inner ++ closing :: rest)
        { function := { f.opened m with blocks := f.blocks.map emptied } } u left s := by
  have names : (labels (inner ++ closing :: rest)).map (·.1) = blocks.map (·.name) :=
    labels_inner lines closes
  have peeked : ∀ ts, Reads peekToken ts ({ function := f.opened m } : Scope)
      (ts.head?.map Lexeme.token) ts { function := f.opened m } := fun ts =>
    reads_peekToken.mpr ⟨rfl, rfl, rfl⟩
  rw [readBody_eq, (peeked _).bind_iff]
  by_cases nameless : entry.name = ""
  · have no_label : blockLabelTokens true entry = [] := by simp [blockLabelTokens, nameless]
    rw [no_label, List.map_eq_nil_iff] at label
    subst label
    have added := reads_addRest (m := m) distinct [entry] body names (inner ++ closing :: rest)
    have first : [entry].map emptied = [{ name := "" }] := by simp [emptied, nameless]
    rw [first] at added
    obtain ⟨inst, insts, some_inst⟩ := List.exists_cons_of_ne_nil solid
    obtain ⟨t, more, rfl, token⟩ : ∃ t more, inner = t :: more ∧ t.token = firstToken f inst := by
      rw [innerLines, some_inst] at lines
      obtain ⟨t, more, rfl, token, -⟩ := List.map_eq_cons_iff.mp lines
      exact ⟨t, more, rfl, token⟩
    have opening : Reads (do
        update fun scope => { scope with function := (scope.function.addBlock "").2 }
        addLabels (labels (← ahead))
        readLines m') (t :: more ++ closing :: rest) { function := f.opened m } u left s ↔
        Reads (readLines m') (t :: more ++ closing :: rest)
          { function := { f.opened m with blocks := f.blocks.map emptied } } u left s := by
      rw [(reads_update.mpr ⟨rfl, rfl⟩ : Reads _ _ _ () _ _).bind_iff,
        (reads_ahead.mpr ⟨rfl, rfl, rfl⟩ : Reads _ _ _ _ _ _).bind_iff]
      exact added.bind_iff
    rcases firstToken_shape f inst with ⟨name, shape⟩ | ⟨word, shape⟩
    · simpa [token, shape] using opening
    · simpa [token, shape] using opening
  · have labelled : blockLabelTokens true entry = [.label entry.name] := by
      simp [blockLabelTokens, nameless]
    rw [labelled, List.map_eq_singleton_iff] at label
    obtain ⟨t, rfl, token⟩ := label
    have whole : (labels (t :: (inner ++ closing :: rest))).map (·.1) = f.blocks.map (·.name) := by
      have first : labels (t :: (inner ++ closing :: rest)) =
          (entry.name, t.start) :: labels (inner ++ closing :: rest) := by
        simp [labels, token]
      rw [first, List.map_cons, names, body, List.map_cons]
    have added := reads_addRest (m := m) distinct [] rfl whole (t :: (inner ++ closing :: rest))
    have opening : Reads (do
        addLabels (labels (← ahead))
        skip
        readLines m') (t :: (inner ++ closing :: rest)) { function := f.opened m } u left s ↔
        Reads (readLines m') (inner ++ closing :: rest)
          { function := { f.opened m with blocks := f.blocks.map emptied } } u left s := by
      rw [(reads_ahead.mpr ⟨rfl, rfl, rfl⟩ : Reads _ _ _ _ _ _).bind_iff]
      exact added.bind_iff.trans (reads_skip.mpr ⟨rfl, rfl⟩ : Reads _ _ _ () _ _).bind_iff
    simpa [token] using opening

theorem takes_body :
    Takes (readBody m'.symbol?) (bodyTokens m f entry blocks ++ [.punct .rbrace]) Anything
      (fun scope => scope = { function := f.opened m }) ()
      (fun scope => scope.function = f.reread m) := by
  intro ts rest s same _ opened
  subst opened
  obtain ⟨front, back, rfl, here, there⟩ := List.map_eq_append_iff.mp same
  obtain ⟨top, inner, rfl, label, lines⟩ := List.map_eq_append_iff.mp here
  obtain ⟨closing, rfl, closes⟩ := List.map_eq_singleton_iff.mp there
  obtain ⟨s', read, final⟩ := takes_readLines ok body (inner ++ [closing]) rest
    { function := { f.opened m with blocks := f.blocks.map emptied } }
    (by rw [List.map_append, lines, ← there]) trivial (filling_opened body)
  rw [List.append_assoc, List.singleton_append] at read
  refine ⟨s', ?_, final⟩
  rw [List.append_assoc, List.append_assoc, List.singleton_append]
  exact (reads_readBody body ok.resolved.labels (ok.entry entry (by rw [body]; rfl)) label lines
    closes).mpr read

end

end Listing

end BlockTally
