import BlockTally.Proofs.Listing.Bodies
import BlockTally.Proofs.Listing.Sourced

/-! What filling a function with its body keeps true: each value of an instruction is defined once,
with the type in the table, or still waits for its definition. Main statement: `readBody_filled`. -/
namespace BlockTally
open Listing

/-- Every result with the type that its operation yields. -/
def Function.typedResults (f : Function) : List (ValueId × Ty) :=
  f.instructions.filterMap fun inst => inst.result.map fun id => (id, inst.op.resultTy)

namespace Function
variable {f g h : Function}

theorem map_fst_typedResults (f : Function) : f.typedResults.map (·.1) = f.results := by
  simp only [typedResults, results, List.map_filterMap, Option.map_map]
  congr
  funext inst
  cases inst.result <;> rfl

theorem mem_typedResults {d : ValueId × Ty} : d ∈ f.typedResults ↔
    ∃ inst ∈ f.instructions, inst.result = some d.1 ∧ inst.op.resultTy = d.2 := by
  simp only [typedResults, List.mem_filterMap, Option.map_eq_some_iff]
  constructor
  · rintro ⟨inst, mem, id, result, rfl⟩
    exact ⟨inst, mem, result, rfl⟩
  · rintro ⟨inst, mem, result, ty⟩
    exact ⟨inst, mem, d.1, result, by rw [ty]⟩

/-- What a body leaves as it is. -/
structure Grown (f g : Function) : Prop where
  steps : f.Steps g
  frame : g = { f with values := g.values, blocks := g.blocks }
  kept : ∀ id v, v.origin ≠ .instruction → (g.value? id = some v ↔ f.value? id = some v)

theorem Grown.refl (f : Function) : f.Grown f := ⟨.refl, rfl, fun _ _ _ => Iff.rfl⟩

theorem Grown.trans (first : f.Grown g) (second : g.Grown h) : f.Grown h where
  steps := Relation.ReflTransGen.trans first.steps second.steps
  frame := by rw [second.frame, first.frame]
  kept := fun id v origin => (second.kept id v origin).trans (first.kept id v origin)

private theorem value?_append {id : ValueId} {v w : Value} (here : f.value? id = some v) :
    { f with values := f.values ++ [w] }.value? id = some v := by
  obtain ⟨inside, -⟩ := List.getElem?_eq_some_iff.mp here
  simpa [value?, List.getElem?_append_left inside] using here

private theorem value?_appended {id : ValueId} {v w : Value}
    (here : { f with values := f.values ++ [w] }.value? id = some v) :
    f.value? id = some v ∨ id.index = f.values.length ∧ v = w := by
  simp only [value?, List.getElem?_append] at here
  split at here
  · exact .inl here
  · rename_i outside
    rw [List.getElem?_singleton] at here
    split at here
    · exact .inr ⟨by omega, (Option.some.inj here).symm⟩
    · cases here

/-- An instruction adds no parameter. -/
theorem Grown.value (f : Function) {name : String} (free : name ∉ f.values.map (·.name)) (ty : Ty) :
    f.Grown { f with values := f.values ++ [⟨name, ty, .instruction⟩] } where
  steps := .single (.addNamedValue (addNamedValue_eq_ok.mpr ⟨free, rfl, rfl⟩))
  frame := rfl
  kept := by
    refine fun id v origin => ⟨fun here => ?_, value?_append⟩
    rcases value?_appended here with old | ⟨-, rfl⟩
    · exact old
    · exact absurd rfl origin

private theorem value?_retyped {id : ValueId} {v w : Value} (found : f.value? id = some v) :
    { f with values := f.values.set id.index w }.value? id = some w := by
  obtain ⟨inside, -⟩ := List.getElem?_eq_some_iff.mp found
  simp [value?, inside]

private theorem value?_other {id k : ValueId} {w : Value} (other : k ≠ id) :
    { f with values := f.values.set id.index w }.value? k = f.value? k := by
  have apart : id.index ≠ k.index := by
    intro same
    cases id
    cases k
    exact other (congrArg _ same.symm)
  simp only [value?, List.getElem?_set_ne apart]

/-- Instructions do not matter for the order in which they are pushed. -/
theorem perm_push {blocks : List Block} {k : Nat} {b : Block} (inst : Instruction)
    (here : blocks[k]? = some b) : ((blocks.set k (b.push inst)).flatMap (·.insts)).Perm
      (inst :: blocks.flatMap (·.insts)) := by
  induction blocks generalizing k with
  | nil => simp at here
  | cons first blocks ih =>
    cases k with
    | zero =>
      obtain rfl : first = b := by simpa using here
      simp only [List.set_cons_zero, List.flatMap_cons, Block.push, List.append_assoc,
        List.singleton_append]
      exact List.perm_middle
    | succ k =>
      simp only [List.set_cons_succ, List.flatMap_cons]
      exact ((ih (by simpa using here)).append_left _).trans List.perm_middle

/-- An instruction is pushed, and nothing else changes. -/
structure Pushed (f : Function) (inst : Instruction) (g : Function) : Prop where
  grown : f.Grown g
  values : g.values = f.values
  labels : g.blocks.map (·.name) = f.blocks.map (·.name)
  instructions : g.instructions.Perm (inst :: f.instructions)

theorem pushed_of_push {id : BlockId} {inst : Instruction} (ok : f.push id inst = some g) :
    f.Pushed inst g := by
  have steps := Steps.push ok
  obtain ⟨b, here, rfl⟩ := Option.map_eq_some_iff.mp ok
  obtain ⟨inside, found⟩ := List.getElem?_eq_some_iff.mp here
  refine ⟨⟨steps, rfl, fun _ _ _ => Iff.rfl⟩, rfl, ?_, perm_push inst here⟩
  apply List.ext_getElem?
  intro k
  by_cases same : id.index = k
  · simp [setBlock, Block.push, ← same, inside, found]
  · simp [setBlock, List.getElem?_set_ne same]

theorem Pushed.within {inst : Instruction} (pushed : f.Pushed inst g) : f.Within g where
  values := by rw [pushed.values]
  blocks := by simpa using (congrArg List.length pushed.labels).ge

end Function

namespace Listing
open Read Relation

/-- The values of instructions are in `defs`, each once and with its type, but for those that await
their definition. -/
structure Tracked (defs : List (ValueId × Ty)) (scope : Scope) : Prop where
  distinct : (scope.function.values.map (·.name)).Nodup
  once : (defs.map (·.1)).Nodup
  defined : ∀ d ∈ defs, ∃ v, scope.function.value? d.1 = some v ∧ v.origin = .instruction ∧
    v.ty = d.2 ∧ v.name ∉ scope.pending.map (·.1)
  settled : ∀ id v, scope.function.value? id = some v → v.origin = .instruction →
    v.name ∉ scope.pending.map (·.1) → id ∈ defs.map (·.1)
  waiting : ∀ name ∈ scope.pending.map (·.1), ∃ id v, scope.function.value? id = some v ∧
    v.name = name ∧ v.origin = .instruction

section
variable {defs : List (ValueId × Ty)} {s s' : Scope} {f : Function}

private theorem name_mem {id : ValueId} {v : Value} (here : f.value? id = some v) :
    v.name ∈ f.values.map (·.name) := List.mem_map_of_mem (List.mem_of_getElem? here)

private theorem id_of_name (distinct : (f.values.map (·.name)).Nodup) {a b : ValueId} {v w : Value}
    (here : f.value? a = some v) (there : f.value? b = some w) (same : v.name = w.name) : a = b := by
  obtain ⟨inside, -⟩ := List.getElem?_eq_some_iff.mp here
  have names : (f.values.map (·.name))[a.index]? = (f.values.map (·.name))[b.index]? := by
    rw [List.getElem?_map, List.getElem?_map]
    simp only [Function.value?] at here there
    rw [here, there, Option.map_some, Option.map_some, same]
  have index := (List.getElem?_inj (by simpa using inside) distinct).mp names
  cases a
  cases b
  exact congrArg ValueId.mk index

private theorem nodup_named {v : Value} (distinct : (f.values.map (·.name)).Nodup)
    (free : v.name ∉ f.values.map (·.name)) : ((f.values ++ [v]).map (·.name)).Nodup := by
  rw [List.map_append, List.map_cons, List.map_nil, List.nodup_append]
  refine ⟨distinct, List.nodup_singleton _, ?_⟩
  rintro a mem b last rfl
  exact free (List.mem_singleton.mp last ▸ mem)

theorem Tracked.mention (tracked : Tracked defs s) (mention : Mention s s') : Tracked defs s' := by
  cases mention with
  | @enter name free ty start =>
    refine ⟨nodup_named tracked.distinct free, tracked.once, ?_, ?_, ?_⟩
    · intro d mem
      obtain ⟨v, here, origin, same, settled⟩ := tracked.defined d mem
      refine ⟨v, Function.value?_append here, origin, same, ?_⟩
      simp only [List.map_append, List.mem_append, not_or]
      refine ⟨settled, fun last => free ?_⟩
      have same : v.name = name := List.mem_singleton.mp last
      exact same ▸ name_mem here
    · intro id v here origin settled
      simp only [List.map_append, List.mem_append, not_or] at settled
      rcases Function.value?_appended here with old | ⟨-, rfl⟩
      · exact tracked.settled id v old origin settled.1
      · exact absurd (List.mem_singleton_self _) settled.2
    · intro other mem
      simp only [List.map_append, List.mem_append] at mem
      rcases mem with old | last
      · obtain ⟨id, v, here, known⟩ := tracked.waiting other old
        exact ⟨id, v, Function.value?_append here, known⟩
      · refine ⟨⟨s.function.values.length⟩, ⟨name, ty, .instruction⟩, ?_,
          (List.mem_singleton.mp last).symm, rfl⟩
        simp [Function.value?]

theorem Tracked.mentions (tracked : Tracked defs s) (mentions : Mentions s s') :
    Tracked defs s' := by
  induction mentions with
  | refl => exact tracked
  | tail _ mention ih => exact ih.mention mention

/-- The names that are pending when one is not any more. -/
theorem mem_others {pending : List (String × Nat)} {name other : String} :
    name ∈ (pending.filter (·.1 != other)).map (·.1) ↔ name ∈ pending.map (·.1) ∧ name ≠ other := by
  simp only [List.mem_map, List.mem_filter, bne_iff_ne]
  constructor
  · rintro ⟨entry, ⟨mem, apart⟩, rfl⟩
    exact ⟨⟨entry, mem, rfl⟩, apart⟩
  · rintro ⟨⟨entry, mem, rfl⟩, apart⟩
    exact ⟨entry, ⟨mem, apart⟩, rfl⟩

theorem Tracked.enter {ty : Ty} {name : String} (tracked : Tracked defs s)
    (free : name ∉ s.function.values.map (·.name)) :
    Tracked ((⟨s.function.values.length⟩, ty) :: defs)
      { s with function := { s.function with
          values := s.function.values ++ [⟨name, ty, .instruction⟩] } } where
  distinct := nodup_named tracked.distinct free
  once := by
    refine List.nodup_cons.mpr ⟨fun mem => ?_, tracked.once⟩
    obtain ⟨d, mem, same⟩ := List.mem_map.mp mem
    obtain ⟨v, here, -⟩ := tracked.defined d mem
    obtain ⟨inside, -⟩ := List.getElem?_eq_some_iff.mp here
    simp [same] at inside
  defined := by
    intro d mem
    rcases List.mem_cons.mp mem with rfl | old
    · refine ⟨⟨name, ty, .instruction⟩, by simp [Function.value?], rfl, rfl, fun waits => free ?_⟩
      obtain ⟨id, v, here, rfl, -⟩ := tracked.waiting _ waits
      exact name_mem here
    · obtain ⟨v, here, known⟩ := tracked.defined d old
      exact ⟨v, Function.value?_append here, known⟩
  settled := by
    intro id v here origin settled
    rcases Function.value?_appended here with old | ⟨last, -⟩
    · exact List.mem_cons_of_mem _ (tracked.settled id v old origin settled)
    · cases id
      simp_all
  waiting := by
    intro other mem
    obtain ⟨id, v, here, known⟩ := tracked.waiting other mem
    exact ⟨id, v, Function.value?_append here, known⟩

/-- A value that waited is defined now, and no other waits under its name. -/
theorem Tracked.settle {ty : Ty} {id : ValueId} {v : Value} (tracked : Tracked defs s)
    (found : s.function.value? id = some v) (waits : v.name ∈ s.pending.map (·.1)) :
    Tracked ((id, ty) :: defs)
      { function := { s.function with values := s.function.values.set id.index { v with ty } }
        pending := s.pending.filter (·.1 != v.name) } where
  distinct := (Function.names_retyped found).symm ▸ tracked.distinct
  once := by
    refine List.nodup_cons.mpr ⟨fun mem => ?_, tracked.once⟩
    obtain ⟨d, mem, same⟩ := List.mem_map.mp mem
    obtain ⟨w, here, -, -, settled⟩ := tracked.defined d mem
    rw [same, found] at here
    exact settled (Option.some.inj here ▸ waits)
  defined := by
    intro d mem
    obtain ⟨k, w, here, same, origin⟩ := tracked.waiting _ waits
    rcases List.mem_cons.mp mem with rfl | old
    · refine ⟨{ v with ty }, Function.value?_retyped found, ?_, rfl, fun mem => (mem_others.mp mem).2 rfl⟩
      obtain rfl := id_of_name tracked.distinct here found same
      rw [found] at here
      exact Option.some.inj here ▸ origin
    · obtain ⟨u, there, origin', ty', settled⟩ := tracked.defined d old
      have other : d.1 ≠ id := by
        rintro rfl
        rw [found] at there
        exact settled (Option.some.inj there ▸ waits)
      exact ⟨u, (Function.value?_other other).trans there, origin', ty',
        fun mem => settled (mem_others.mp mem).1⟩
  settled := by
    intro k u there origin settled
    by_cases same : k = id
    · exact same ▸ List.mem_cons_self
    · rw [Function.value?_other same] at there
      refine List.mem_cons_of_mem _ (tracked.settled k u there origin fun mem => settled ?_)
      exact mem_others.mpr ⟨mem, fun name => same (id_of_name tracked.distinct there found name)⟩
  waiting := by
    intro name mem
    obtain ⟨old, other⟩ := mem_others.mp mem
    obtain ⟨k, u, there, rfl, origin⟩ := tracked.waiting name old
    refine ⟨k, u, (Function.value?_other ?_).trans there, rfl, origin⟩
    rintro rfl
    rw [found] at there
    exact other (Option.some.inj there ▸ rfl)

theorem Tracked.define {ty : Ty} {id : ValueId} (tracked : Tracked defs s)
    (define : Define ty id s s') : Tracked ((id, ty) :: defs) s' := by
  cases define with
  | enter _ free => exact tracked.enter free
  | settle _ found waits => exact tracked.settle found waits

theorem Tracked.of_values {defs' : List (ValueId × Ty)} {g : Function}
    (tracked : Tracked defs s) (values : g.values = s.function.values) (perm : defs'.Perm defs) :
    Tracked defs' { s with function := g } := by
  have value : ∀ id, g.value? id = s.function.value? id := fun id => by
    rw [Function.value?, Function.value?, values]
  refine ⟨values ▸ tracked.distinct, (perm.map _).nodup_iff.mpr tracked.once, ?_, ?_, ?_⟩
  · intro d mem
    obtain ⟨v, here, known⟩ := tracked.defined d (perm.mem_iff.mp mem)
    exact ⟨v, (value _).trans here, known⟩
  · intro id v here origin settled
    exact (perm.map _).mem_iff.mpr (tracked.settled id v ((value id).symm.trans here) origin settled)
  · intro name mem
    obtain ⟨id, v, here, known⟩ := tracked.waiting name mem
    exact ⟨id, v, (value id).trans here, known⟩

theorem Mention.grown (mention : Mention s s') : s.function.Grown s'.function := by
  cases mention with
  | enter free ty => exact .value _ free ty

theorem Mentions.grown (mentions : Mentions s s') : s.function.Grown s'.function := by
  induction mentions with
  | refl => exact .refl _
  | tail _ mention ih => exact ih.trans mention.grown

theorem Mentions.blocks (mentions : Mentions s s') : s'.function.blocks = s.function.blocks := by
  induction mentions with
  | refl => rfl
  | tail _ mention ih =>
    cases mention with
    | enter => exact ih

theorem Define.blocks {ty : Ty} {id : ValueId} (define : Define ty id s s') :
    s'.function.blocks = s.function.blocks := by
  cases define with
  | enter => rfl
  | settle => rfl

theorem Define.grown {ty : Ty} {id : ValueId} (define : Define ty id s s')
    (tracked : Tracked defs s) : s.function.Grown s'.function := by
  cases define with
  | enter _ free => exact .value _ free ty
  | @settle _ id v found waits =>
    have retyped : s.function.retype id ty = some
        { s.function with values := s.function.values.set id.index { v with ty } } := by
      rw [Function.retype, found]
      rfl
    obtain ⟨l, w, there, same, origin⟩ := tracked.waiting _ waits
    obtain rfl := id_of_name tracked.distinct there found same
    obtain rfl := Option.some.inj (there.symm.trans found)
    refine ⟨.single (.retype retyped), rfl, fun k u other => ?_⟩
    by_cases same : k = l
    · subst same
      rw [Function.value?_retyped found, found]
      constructor
      · rintro ⟨⟩
        exact absurd origin other
      · rintro ⟨⟩
        exact absurd origin other
    · rw [Function.value?_other same]

/-- The state of a body that is partly read, for a function `f` and tokens `ts`. -/
structure Filled (m : Module) (f : Function) (names : List String) (ts : List Lexeme)
    (s : Scope) : Prop where
  grown : f.Grown s.function
  labels : s.function.blocks.map (·.name) = names
  tracked : Tracked s.function.typedResults s
  ops : ∀ inst ∈ s.function.instructions, inst.op.FromText m s.function
  yields : ∀ d ∈ s.function.typedResults, d.2 ≠ .void
  names : ∀ name ∈ s.function.values.map (·.name), name ∈ f.values.map (·.name) ∨
    ∃ t ∈ ts, t.token = .localName name

theorem instructions_congr {f g : Function} (same : g.blocks = f.blocks) :
    g.instructions = f.instructions := by
  rw [Function.instructions, Function.instructions, same]

private theorem typedResults_congr {f g : Function} (same : g.blocks = f.blocks) :
    g.typedResults = f.typedResults := by
  rw [Function.typedResults, Function.typedResults, instructions_congr same]

/-- What an instruction adds to the results. -/
def newResults (inst : Instruction) : List (ValueId × Ty) :=
  inst.result.toList.map fun id => (id, inst.op.resultTy)

theorem Defines.spec {inst : Instruction} (defines : Defines inst s s')
    (tracked : Tracked defs s) : Tracked (newResults inst ++ defs) s' ∧
      s.function.Grown s'.function ∧ s'.function.blocks = s.function.blocks ∧
      s.function.Within s'.function ∧ ∀ d ∈ newResults inst, d.2 ≠ .void := by
  unfold Defines at defines
  unfold newResults
  split at defines
  · rename_i none
    subst defines
    rw [none]
    exact ⟨tracked, .refl _, rfl, .refl _, by simp⟩
  · rename_i id some
    obtain ⟨yields, define⟩ := defines
    rw [some]
    exact ⟨tracked.define define, define.grown tracked, define.blocks, define.within,
      by simpa using yields⟩

theorem InstructionWent.blocks {m : Module} {first : Lexeme} {ts rest : List Lexeme}
    {inst : Instruction} (went : InstructionWent m first ts s inst rest s') :
    s'.function.blocks = s.function.blocks := by
  obtain ⟨middle, mentions, -, defines⟩ := went.scope
  rw [← mentions.blocks]
  unfold Defines at defines
  split at defines
  · rw [defines]
  · exact defines.2.blocks

private theorem results_pushed {f g : Function} {inst : Instruction}
    (pushed : f.Pushed inst g) : g.typedResults.Perm (newResults inst ++ f.typedResults) := by
  have perm := pushed.instructions.filterMap fun inst => inst.result.map fun id => (id, inst.op.resultTy)
  refine perm.trans (.of_eq ?_)
  rw [List.filterMap_cons, newResults]
  cases inst.result <;> rfl

/-- One more instruction, read from tokens of the body, is pushed. -/
theorem Filled.instruction {m : Module} {g : Function} {names : List String} {first : Lexeme}
    {ts left rest : List Lexeme} {inst : Instruction} {id : BlockId} (filled : Filled m f names ts s)
    (went : InstructionWent m first left s inst rest s') (inside : first :: left ⊆ ts)
    (ok : s'.function.push id inst = some g) : Filled m f names ts { s' with function := g } := by
  obtain ⟨middle, mentions, known, defines⟩ := went.scope
  obtain ⟨tracked, grown, blocks, within, yields⟩ :=
    defines.spec (filled.tracked.mentions mentions)
  have pushed := Function.pushed_of_push ok
  have same : s'.function.blocks = s.function.blocks := blocks.trans mentions.blocks
  have results := results_pushed pushed
  rw [typedResults_congr same] at results
  have larger : s.function.Within g := (mentions.within.trans within).trans pushed.within
  have code := pushed.instructions
  rw [instructions_congr same] at code
  refine ⟨((filled.grown.trans mentions.grown).trans grown).trans pushed.grown, ?_,
    tracked.of_values pushed.values results, ?_, ?_, ?_⟩
  · change g.blocks.map (·.name) = names
    rw [pushed.labels, same, filled.labels]
  · intro i mem
    rcases List.mem_cons.mp (code.mem_iff.mp mem) with rfl | old
    · exact known.mono (within.trans pushed.within)
    · exact (filled.ops i old).mono larger
  · intro d mem
    rcases List.mem_append.mp (results.mem_iff.mp mem) with new | old
    · exact yields d new
    · exact filled.yields d old
  · intro name mem
    change name ∈ g.values.map (·.name) at mem
    rw [pushed.values] at mem
    rcases went.names name mem with old | ⟨t, here, sign⟩
    · exact filled.names name old
    · exact .inr ⟨t, inside here, sign⟩

variable {m : Module} {names : List String} {ts left rest : List Lexeme}

/-- An instruction, of which the first token is taken, goes into its block. -/
def readPushed (m : Module) (first : Lexeme) (current : Nat) : Read Scope Nat := do
  let inst ← readInstruction m.symbol? first
  match (← state).function.push ⟨current⟩ inst with
  | none => outOfRange
  | some function =>
    update fun scope => { scope with function }
    return current

/-- What is done with a line of a body, of which the first token is taken. -/
def readLine (m : Module) (first : Lexeme) (current : Nat) : Read Scope Nat :=
  match first.token with
  | .label _ => return current + 1
  | _ => readPushed m first current

theorem readLine_cases (m : Module) (first : Lexeme) (current : Nat) :
    (∃ name, first.token = .label name) ∧ readLine m first current = pure (current + 1) ∨
      (∀ name, first.token ≠ .label name) ∧ readLine m first current = readPushed m first current := by
  unfold readLine
  split
  · rename_i name token
    exact .inl ⟨⟨name, token⟩, rfl⟩
  · rename_i other
    exact .inr ⟨other, rfl⟩

def pickLine (_ : Nat) (t : Lexeme) (_ : List Lexeme) : Option Lexeme :=
  if t.token = .punct .rbrace then none else some t

theorem fillBlocks_eq (m : Module) : fillBlocks m.symbol? = whileNext pickLine (readLine m) 0 := rfl

theorem pickLine_eq_some {current : Nat} {t first : Lexeme} :
    pickLine current t ts = some first ↔ t.token ≠ .punct .rbrace ∧ first = t := by
  unfold pickLine
  split
  · simp_all
  · simp_all [eq_comm]

/-- A label moves on to the next block, and an instruction is pushed to its block. -/
inductive LineWent (m : Module) (first : Lexeme) (left : List Lexeme) (current : Nat) (s : Scope) :
    Nat → List Lexeme → Scope → Prop
  | label {name : String} (token : first.token = .label name) :
      LineWent m first left current s (current + 1) left s
  | instruction {inst : Instruction} {rest : List Lexeme} {s' : Scope} {g : Function}
      (other : ∀ name, first.token ≠ .label name) (flat : isFlat first.token = true)
      (went : InstructionWent m first left s inst rest s')
      (ok : s'.function.push ⟨current⟩ inst = some g) :
      LineWent m first left current s current rest { s' with function := g }

theorem readLine_went {first : Lexeme} {current next : Nat}
    (whole : Reads (readLine m first current) left s next rest s') :
    LineWent m first left current s next rest s' := by
  rcases readLine_cases m first current with ⟨⟨name, token⟩, same⟩ | ⟨other, same⟩
  · rw [same] at whole
    obtain ⟨rfl, rfl, rfl⟩ := reads_pure.mp whole
    exact .label token
  · rw [same] at whole
    simp only [readPushed, reads_bind, reads_state] at whole
    obtain ⟨inst, _, _, one, _, _, _, ⟨rfl, rfl, rfl⟩, last⟩ := whole
    obtain ⟨flat, went⟩ := readInstruction_went one
    split at last
    · exact absurd last reads_outOfRange
    · rename_i pushed
      simp only [reads_bind, reads_update, reads_pure] at last
      obtain ⟨_, _, _, ⟨rfl, rfl⟩, rfl, rfl, rfl⟩ := last
      exact .instruction other flat went pushed

theorem LineWent.passes {first : Lexeme} {current next : Nat}
    (line : LineWent m first left current s next rest s') : Passes (first :: left) rest := by
  cases line with
  | label token => exact .single token rfl
  | instruction _ flat went => exact Passes.trans (.single rfl flat) went.passes

theorem Filled.line {first : Lexeme} {current next : Nat} (filled : Filled m f names ts s)
    (before : Passes ts (first :: left)) (line : LineWent m first left current s next rest s') :
    Filled m f names ts s' ∧ Passes ts rest := by
  refine ⟨?_, before.trans line.passes⟩
  cases line with
  | label => exact filled
  | instruction _ _ went ok => exact filled.instruction went before.subset ok

theorem Filled.lines (filled : Filled m f names ts s) (before : Passes ts left) {count : Nat}
    (read : Reads (fillBlocks m.symbol?) left s count rest s') : Filled m f names ts s' ∧ Passes ts rest := by
  rw [fillBlocks_eq] at read
  refine (reads_whileNext.mp read).preserves
    (P := fun _ left now => Filled m f names ts now ∧ Passes ts left) ?_ ⟨filled, before⟩
  rintro current t left now first next between now' picked ⟨filled, before⟩ round
  obtain ⟨-, rfl⟩ := pickLine_eq_some.mp picked
  exact filled.line before (readLine_went round)

/-- A function without blocks, whose values are parameters. -/
structure Fresh (f : Function) : Prop where
  blocks : f.blocks = []
  distinct : (f.values.map (·.name)).Nodup
  params : ∀ v ∈ f.values, v.origin ≠ .instruction

/-- With a block of each of these names, which are to be filled. -/
def withBlocks (f : Function) (names : List String) : Function :=
  { f with blocks := f.blocks ++ names.map fun name => { name } }

theorem withBlocks_cons (f : Function) (name : String) (names : List String) :
    withBlocks (f.addBlock name).2 names = withBlocks f (name :: names) := by
  simp [withBlocks, Function.addBlock]

private theorem steps_withBlocks (f : Function) (names : List String) :
    f.Steps (withBlocks f names) := by
  induction names generalizing f with
  | nil =>
    rw [withBlocks, List.map_nil, List.append_nil]
    exact .refl
  | cons name names ih =>
    rw [← withBlocks_cons]
    exact .head (.addBlock f name) (ih _)

theorem nodup_addBlock {name : String} (distinct : (f.blocks.map (·.name)).Nodup)
    (free : name ∉ f.blocks.map (·.name)) : ((f.addBlock name).2.blocks.map (·.name)).Nodup := by
  rw [Function.addBlock, List.map_append, List.nodup_append]
  exact ⟨distinct, List.nodup_singleton _, by simpa using free⟩

theorem addLabels_adds {found : List (String × Nat)} (whole : Reads (addLabels found) ts s u rest s')
    (distinct : (s.function.blocks.map (·.name)).Nodup) :
    (s.function.blocks.map (·.name) ++ found.map (·.1)).Nodup ∧ rest = ts ∧
      s' = { s with function := withBlocks s.function (found.map (·.1)) } := by
  induction found generalizing s with
  | nil =>
    obtain ⟨-, rfl, rfl⟩ := reads_pure.mp whole
    exact ⟨by simpa using distinct, rfl, by simp [withBlocks]⟩
  | cons label found ih =>
    simp only [addLabels, reads_bind, reads_state] at whole
    obtain ⟨_, _, _, ⟨rfl, rfl, rfl⟩, read⟩ := whole
    split at read
    · obtain ⟨_, _, _, refused, -⟩ := reads_bind.mp read
      exact absurd refused reads_refuseAt
    · rename_i free
      simp only [reads_bind, reads_update] at read
      obtain ⟨_, _, _, ⟨rfl, rfl⟩, more⟩ := read
      rw [blockNamed?_isSome] at free
      obtain ⟨all, rfl, rfl⟩ := ih more (nodup_addBlock distinct free)
      refine ⟨by simpa [Function.addBlock] using all, rfl, ?_⟩
      rw [List.map_cons, ← withBlocks_cons]

/-- Nothing is pushed yet. -/
theorem Fresh.instructions (fresh : Fresh f) (names : List String) :
    (withBlocks f names).instructions = [] := by
  simp [withBlocks, Function.instructions, fresh.blocks, List.flatMap_map]

theorem Fresh.filled (fresh : Fresh f) (names : List String) (ts : List Lexeme) :
    Filled m f names ts { function := withBlocks f names } := by
  have code := fresh.instructions names
  have results : (withBlocks f names).typedResults = [] := by
    rw [Function.typedResults, code]
    rfl
  refine ⟨⟨steps_withBlocks f names, rfl, fun _ _ _ => Iff.rfl⟩, ?_, ?_, ?_, ?_, fun _ => .inl⟩
  · simp [withBlocks, fresh.blocks, Function.comp_def]
  · rw [results]
    refine ⟨fresh.distinct, List.nodup_nil, by simp, fun id v here origin => ?_, by simp⟩
    exact absurd origin (fresh.params v (List.mem_of_getElem? here))
  · rw [code]
    simp
  · rw [results]
    simp

/-- The names of the blocks that the labels of a body announce. -/
def blockNames (ts : List Lexeme) : List String :=
  match ts.head?.map Lexeme.token with
  | some (.label _) => (labels ts).map (·.1)
  | _ => "" :: (labels ts).map (·.1)

theorem blockNames_label {name : String} (next : ts.head?.map Lexeme.token = some (.label name)) :
    blockNames ts = (labels ts).map (·.1) := by rw [blockNames, next]

theorem blockNames_entry (other : ∀ name, ts.head?.map Lexeme.token ≠ some (.label name)) :
    blockNames ts = "" :: (labels ts).map (·.1) := by
  unfold blockNames
  split
  · rename_i name next
    exact absurd next (other name)
  · rfl

private theorem readLines_filled (filled : Filled m f names ts s) (before : Passes ts left)
    (whole : Reads (readLines m) left s u rest s') : Filled m f names ts s' ∧ s'.pending = [] ∧
      ∃ closing, Passes ts (closing :: rest) ∧ closing.token = .punct .rbrace := by
  obtain ⟨_, _, _, lines, more⟩ := reads_bind.mp whole
  obtain ⟨filled, passes⟩ := filled.lines before lines
  obtain ⟨closed, _, _, eaten, last⟩ := reads_bind.mp more
  cases closed with
  | false =>
    obtain ⟨_, _, _, refused, -⟩ := reads_bind.mp last
    exact absurd refused reads_refuse
  | true =>
    obtain ⟨closing, rfl, brace, rfl⟩ := reads_eaten eaten
    simp only [Bool.not_true, Bool.false_eq_true, if_false, reads_bind, reads_state] at last
    obtain ⟨_, _, _, ⟨rfl, rfl, rfl⟩, settled⟩ := last
    split at settled
    · rename_i empty
      obtain ⟨-, rfl, rfl⟩ := reads_pure.mp settled
      exact ⟨filled, List.head?_eq_none_iff.mp empty, closing, passes, brace⟩
    · exact absurd settled reads_refuseAt

/-- The labels give the blocks, and the lines are read into them. -/
theorem readBody_opened (fresh : Fresh f) (whole : Reads (readBody m.symbol?) ts { function := f } u rest s') :
    (blockNames ts).Nodup ∧ ∃ left, Passes ts left ∧
      Reads (readLines m) left { function := withBlocks f (blockNames ts) } u rest s' := by
  have none : (f.blocks.map (·.name)).Nodup := by simp [fresh.blocks]
  rw [readBody_eq] at whole
  simp only [reads_bind, reads_peekToken] at whole
  obtain ⟨_, _, _, ⟨rfl, rfl, rfl⟩, read⟩ := whole
  split at read
  · rename_i name next
    simp only [reads_bind, reads_ahead, reads_skip] at read
    obtain ⟨_, _, _, ⟨rfl, rfl, rfl⟩, _, _, _, added, _, _, _, ⟨rfl, rfl⟩, lines⟩ := read
    obtain ⟨distinct, rfl, rfl⟩ := addLabels_adds added none
    rw [blockNames_label next]
    exact ⟨by simpa [fresh.blocks] using distinct, _, passes_tail next rfl, lines⟩
  · rename_i other
    simp only [reads_bind, reads_update, reads_ahead] at read
    obtain ⟨_, _, _, ⟨rfl, rfl⟩, _, _, _, ⟨rfl, rfl, rfl⟩, _, _, _, added, lines⟩ := read
    obtain ⟨distinct, rfl, rfl⟩ := addLabels_adds added (nodup_addBlock none (by simp [fresh.blocks]))
    rw [blockNames_entry other]
    rw [withBlocks_cons] at lines
    exact ⟨by simpa [Function.addBlock, fresh.blocks] using distinct, _, .refl _, lines⟩

theorem readBody_filled (fresh : Fresh f) (whole : Reads (readBody m.symbol?) ts { function := f } u rest s') :
    (blockNames ts).Nodup ∧ Filled m f (blockNames ts) ts s' ∧ s'.pending = [] ∧
      ∃ closing, Passes ts (closing :: rest) ∧ closing.token = .punct .rbrace := by
  obtain ⟨distinct, left, before, lines⟩ := readBody_opened fresh whole
  exact ⟨distinct, readLines_filled (fresh.filled _ _) before lines⟩

end

end Listing

end BlockTally
