import BlockTally.Listing.Parse
import BlockTally.Proofs.Listing.Entries
import BlockTally.Proofs.Listing.Filled
import BlockTally.Proofs.Listing.Functions

/-! What is known of a module that is read from a text: of every function the tables and the text that
is kept, whatever the text was. Main statement: `parse_read`. -/
namespace BlockTally
open Listing Text

/-- What is known of a function of a module that is read. Its values are its parameters and the
results of its instructions, each defined once and with the type in the table. -/
structure Function.FromText (m : Module) (f : Function) : Prop where
  built : f.Built
  name : Unquoted f.name
  ret : f.ret.InRange
  names : ∀ v ∈ f.values, Unquoted v.name
  param : ∀ id v, f.value? id = some v → v.origin ≠ .instruction → id ∈ f.params ∧ v.ty.InRange
  result : ∀ id v, f.value? id = some v → v.origin = .instruction → id ∈ f.results
  once : f.results.Nodup
  typed : ∀ inst ∈ f.instructions, ∀ id, inst.result = some id → ∃ v, f.value? id = some v ∧
    v.origin = .instruction ∧ v.ty = inst.op.resultTy ∧ v.ty ≠ .void
  ops : ∀ inst ∈ f.instructions, inst.op.FromText m f
  labels : (f.blocks.map (·.name)).Nodup
  unquoted : ∀ b ∈ f.blocks, Unquoted b.name
  lead : KeptWords true isTyWord f.attrs.lead
  attrs : f.attrs.params.length = f.params.length
  kept : ∀ text ∈ f.attrs.params, KeptParam text
  trail : KeptTrail f

/-- What is known of a module that is read, but for its functions. -/
structure Module.TextKept (m : Module) : Prop where
  sourceFilename : ∀ text ∈ m.sourceFilename, Unquoted text
  datalayout : ∀ text ∈ m.datalayout, Unquoted text
  triple : ∀ text ∈ m.triple, Unquoted text
  comdats : ∀ text ∈ m.comdats, KeptLine .comdatRef text
  globals : ∀ g ∈ m.globals, GlobalReadable g
  initials : ∀ g ∈ m.globals, ∀ c ∈ g.initial, c.StableAt g.ty
  groups : ∀ text ∈ m.attributeGroups, KeptLine (.word "attributes") text
  named : ∀ node ∈ m.namedMetadata, NodeName node.1 ∧ NodeText node.2
  nodes : ∀ node ∈ m.metadata, NodeText node.2

/-- Two modules of which the tables have the same sizes. -/
structure Module.SameSize (m m' : Module) : Prop where
  globals : m'.globals.length = m.globals.length
  functions : m'.functions.length = m.functions.length

section
variable {m m' : Module} {f h : Function}

theorem Operand.In.congr {o : Operand} (inside : o.In m f) (same : m.SameSize m') : o.In m' f := by
  cases o with
  | value id => exact inside
  | constant c => trivial
  | global id =>
    simpa [Operand.In, Module.global?, same.globals] using inside
  | function id =>
    simpa [Operand.In, Module.function?, same.functions] using inside

theorem Operation.FromText.congr {op : Operation} (known : op.FromText m f)
    (same : m.SameSize m') : op.FromText m' f :=
  { known with operands := fun p mem => (known.operands p mem).congr same }

theorem Function.FromText.congr (known : f.FromText m) (same : m.SameSize m') : f.FromText m' :=
  { known with ops := fun inst mem => (known.ops inst mem).congr same }

theorem Function.Headed.fresh (headed : h.Headed) : Fresh h where
  blocks := headed.blocks
  distinct := headed.built.coherent.distinct
  params := fun v mem => (headed.values v mem).1

theorem Function.Headed.mem_params (headed : h.Headed) {id : ValueId} :
    id ∈ h.params ↔ (h.value? id).isSome := by
  rw [headed.params, h.value?_isSome]
  constructor
  · intro mem
    obtain ⟨k, below, rfl⟩ := List.mem_map.mp mem
    exact List.mem_range.mp below
  · intro below
    exact List.mem_map.mpr ⟨id.index, List.mem_range.mpr below, rfl⟩

/-- A function without a body. -/
theorem Function.Headed.declared (headed : f.Headed)
    (trail : ∃ ts, Raw f.attrs.trail ts ∧ ∀ u ∈ ts, u.start < firstLine f.attrs.trail.toList) :
    f.FromText m := by
  have none : f.instructions = [] := by rw [Function.instructions, headed.blocks]; rfl
  have declaration : f.isDeclaration = true := by rw [Function.isDeclaration, headed.blocks]; rfl
  have values : ∀ {id v}, f.value? id = some v → v ∈ f.values := List.mem_of_getElem?
  refine { built := headed.built, name := headed.name, ret := headed.ret
           names := fun v mem => (headed.values v mem).2.2, param := fun id v here _ => ?_
           result := fun id v here origin => ?_, once := ?_, typed := ?_, ops := ?_
           labels := ?_, unquoted := ?_, lead := headed.lead, attrs := headed.attrs
           kept := headed.kept, trail := ?_ }
  · exact ⟨headed.mem_params.mpr (by rw [here]; rfl), (headed.values v (values here)).2.1⟩
  · exact absurd origin (headed.values v (values here)).1
  · rw [Function.results, none]
    exact List.nodup_nil
  · simp [none]
  · simp [none]
  · simp [headed.blocks]
  · simp [headed.blocks]
  · obtain ⟨ts, raw, onLine⟩ := trail
    exact ⟨ts, raw, by rw [if_pos declaration]; exact onLine⟩

theorem Listing.blockNames_ne_nil (ts : List Lexeme) : blockNames ts ≠ [] := by
  unfold blockNames
  split
  · rename_i name next
    obtain ⟨t, first, token⟩ := Option.map_eq_some_iff.mp next
    obtain ⟨more, rfl⟩ := List.head?_eq_some_iff.mp first
    simp [labels, token]
  · simp

theorem Listing.unquoted_blockNames {ts : List Lexeme} (lettered : ∀ t ∈ ts, Lettered t.token) :
    ∀ name ∈ blockNames ts, Unquoted name := by
  have known : ∀ name ∈ (labels ts).map (·.1), Unquoted name := by
    intro name mem
    obtain ⟨⟨_, start⟩, label, rfl⟩ := List.mem_map.mp mem
    obtain ⟨t, among, here⟩ := List.mem_filterMap.mp label
    have letters := lettered t ((List.takeWhile_prefix _).subset among)
    cases token : t.token with
    | label text =>
      rw [token] at letters here
      cases here
      exact letters
    | _ => simp [token] at here
  unfold blockNames
  split
  · exact known
  · exact List.forall_mem_cons.mpr ⟨by decide, known⟩

/-- A function whose body is read. -/
theorem Listing.Filled.fromText {ts : List Lexeme} {s : Scope} (headed : h.Headed)
    (trail : ∃ us, Raw h.attrs.trail us ∧ ∀ u ∈ us, u.token ≠ .punct .lbrace)
    (filled : Filled m h (blockNames ts) ts s) (labels : (blockNames ts).Nodup)
    (settled : s.pending = []) (lettered : ∀ t ∈ ts, Lettered t.token) :
    s.function.FromText m := by
  obtain ⟨grown, names, tracked, ops, yields, mentioned⟩ := filled
  have frame := grown.frame
  have results := s.function.map_fst_typedResults
  have awaited : ∀ v : Value, v.name ∉ s.pending.map (·.1) := by simp [settled]
  have some : s.function.isDeclaration = false := by
    have blocks := blockNames_ne_nil ts
    rw [← names] at blocks
    simpa [Function.isDeclaration] using blocks
  refine { built := headed.built.steps grown.steps, name := ?_, ret := ?_, names := ?_
           param := ?_, result := ?_, once := results ▸ tracked.once, typed := ?_, ops
           labels := names ▸ labels, unquoted := ?_, lead := ?_, attrs := ?_, kept := ?_
           trail := ?_ }
  · rw [frame]
    exact headed.name
  · rw [frame]
    exact headed.ret
  · intro v mem
    rcases mentioned v.name (List.mem_map_of_mem mem) with old | ⟨t, among, token⟩
    · obtain ⟨w, mem, same⟩ := List.mem_map.mp old
      exact same ▸ (headed.values w mem).2.2
    · have letters := lettered t among
      rwa [token] at letters
  · intro id v here origin
    have old := (grown.kept id v origin).mp here
    refine ⟨?_, (headed.values v (List.mem_of_getElem? old)).2.1⟩
    rw [frame]
    exact headed.mem_params.mpr (by rw [old]; rfl)
  · intro id v here origin
    exact results ▸ tracked.settled id v here origin (awaited v)
  · intro inst mem id result
    have typed : (id, inst.op.resultTy) ∈ s.function.typedResults :=
      Function.mem_typedResults.mpr ⟨inst, mem, result, rfl⟩
    obtain ⟨v, here, origin, ty, -⟩ := tracked.defined (id, inst.op.resultTy) typed
    exact ⟨v, here, origin, ty, ty ▸ yields _ typed⟩
  · intro b mem
    exact unquoted_blockNames lettered b.name (names ▸ List.mem_map_of_mem mem)
  · rw [frame]
    exact headed.lead
  · rw [frame]
    exact headed.attrs
  · rw [frame]
    exact headed.kept
  · obtain ⟨us, raw, outside⟩ := trail
    refine ⟨us, ?_, by simpa [some] using outside⟩
    rw [frame]
    exact raw

end

namespace Listing
open Read

/-- The tokens behind an opening brace of the text, up to the matching one and further. -/
def Delimited (src : List Char) (body : List Lexeme) : Prop :=
  ∃ brace extent after, body = extent ++ after ∧ brace.token = .punct .lbrace ∧
    Source src (brace :: body) ∧ closes .lbrace .rbrace 1 (extent.map (·.token)) = true

/-- A draft of which all entities came from the text. -/
structure DraftKept (src : List Char) (d : Draft) : Prop where
  built : d.module.Built
  kept : d.module.TextKept
  headed : ∀ f ∈ d.module.functions, f.Headed
  declared : ∀ k f, d.module.functions[k]? = some f → ⟨k⟩ ∉ d.bodies.map (·.1) →
    ∃ ts, Raw f.attrs.trail ts ∧ ∀ u ∈ ts, u.start < firstLine f.attrs.trail.toList
  defined : ∀ b ∈ d.bodies, Delimited src b.2 ∧ ∃ f, d.module.function? b.1 = some f ∧
    ∃ ts, Raw f.attrs.trail ts ∧ ∀ u ∈ ts, u.token ≠ .punct .lbrace
  ids : (d.bodies.map (·.1)).Nodup

section
variable {src : List Char} {d d' : Draft} {m : Module}

/-- Entities that are no functions. -/
theorem DraftKept.of_functions (known : DraftKept src d) (built : m.Built) (kept : m.TextKept)
    (functions : m.functions = d.module.functions) : DraftKept src { d with module := m } where
  built := built
  kept := kept
  headed := functions ▸ known.headed
  declared := functions ▸ known.declared
  defined := fun b mem => by
    rw [Module.function?, functions]
    exact known.defined b mem
  ids := known.ids

theorem mem_insertNode {node : UInt32} {text : String} {e : UInt32 × String} :
    ∀ {entries : List (UInt32 × String)}, e ∈ Module.insertNode node text entries →
      e = (node, text) ∨ e ∈ entries
  | [], mem => .inl (by simpa [Module.insertNode] using mem)
  | first :: rest, mem => by
    unfold Module.insertNode at mem
    split at mem
    · exact (List.mem_cons.mp mem)
    split at mem
    · exact (List.mem_cons.mp mem).imp_right (.tail _)
    · rcases List.mem_cons.mp mem with rfl | mem
      · exact .inr List.mem_cons_self
      · exact (mem_insertNode mem).imp_right (.tail _)

theorem forall_mem_snoc {α : Type} {p : α → Prop} {xs : List α} {x : α} (old : ∀ y ∈ xs, p y)
    (last : p x) : ∀ y ∈ xs ++ [x], p y := by
  intro y mem
  rcases List.mem_append.mp mem with mem | mem
  · exact old y mem
  · exact List.mem_singleton.mp mem ▸ last

theorem DraftKept.function_lt (known : DraftKept src d) {id : FuncId}
    (mem : id ∈ d.bodies.map (·.1)) : id.index < d.module.functions.length := by
  obtain ⟨b, among, rfl⟩ := List.mem_map.mp mem
  obtain ⟨-, f, found, -⟩ := known.defined b among
  exact (List.getElem?_eq_some_iff.mp found).1

private theorem getElem?_snoc {α : Type} {xs : List α} {x y : α} {k : Nat}
    (here : (xs ++ [x])[k]? = some y) :
    xs[k]? = some y ∨ k = xs.length ∧ y = x := by
  rw [List.getElem?_append] at here
  split at here
  · exact .inl here
  · rw [List.getElem?_singleton] at here
    split at here
    · exact .inr ⟨by omega, (Option.some.inj here).symm⟩
    · cases here

theorem TextKept.functions (kept : m.TextKept) (functions : List Function) :
    Module.TextKept { m with functions } :=
  ⟨kept.sourceFilename, kept.datalayout, kept.triple, kept.comdats, kept.globals, kept.initials,
    kept.groups, kept.named, kept.nodes⟩

/-- The bodies stay those of the older functions. -/
theorem DraftKept.older (known : DraftKept src d) (f : Function) :
    ∀ b ∈ d.bodies, Delimited src b.2 ∧
      ∃ g, ({ d.module with functions := d.module.functions ++ [f] } : Module).function? b.1 = some g ∧
        ∃ ts, Raw g.attrs.trail ts ∧ ∀ u ∈ ts, u.token ≠ .punct .lbrace := by
  intro b mem
  obtain ⟨delimited, g, found, trail⟩ := known.defined b mem
  have inside := known.function_lt (List.mem_map_of_mem mem)
  exact ⟨delimited, g, (List.getElem?_append_left inside).trans found, trail⟩

section
variable {f : Function} (known : DraftKept src d) (headed : f.Headed)
  (free : f.name ∉ d.module.symbolNames)
include known headed free

theorem DraftKept.addDeclared
    (trail : ∃ ts, Raw f.attrs.trail ts ∧ ∀ u ∈ ts, u.start < firstLine f.attrs.trail.toList) :
    DraftKept src { d with module :=
      { d.module with functions := d.module.functions ++ [f] } } where
  built := known.built.addFunction headed.built (Module.addFunction_eq_ok.mpr ⟨free, rfl, rfl⟩)
  kept := TextKept.functions known.kept _
  headed := forall_mem_snoc known.headed headed
  declared := by
    intro k g here outside
    rcases getElem?_snoc here with old | ⟨-, rfl⟩
    · exact known.declared k g old outside
    · exact trail
  defined := known.older f
  ids := known.ids

theorem DraftKept.addDefined {body : List Lexeme} (delimited : Delimited src body)
    (trail : ∃ ts, Raw f.attrs.trail ts ∧ ∀ u ∈ ts, u.token ≠ .punct .lbrace) :
    DraftKept src { module := { d.module with functions := d.module.functions ++ [f] }
                    bodies := d.bodies ++ [(⟨d.module.functions.length⟩, body)] } where
  built := known.built.addFunction headed.built (Module.addFunction_eq_ok.mpr ⟨free, rfl, rfl⟩)
  kept := TextKept.functions known.kept _
  headed := forall_mem_snoc known.headed headed
  declared := by
    intro k g here outside
    rw [List.map_append] at outside
    rcases getElem?_snoc here with old | ⟨rfl, -⟩
    · exact known.declared k g old fun mem => outside (List.mem_append_left _ mem)
    · exact absurd (List.mem_append_right _ (List.mem_singleton.mpr rfl)) outside
  defined := forall_mem_snoc (known.older f) ⟨delimited, f, List.getElem?_concat_length, trail⟩
  ids := by
    rw [List.map_append, List.nodup_append]
    refine ⟨known.ids, by simp, ?_⟩
    intro id mem last here same
    have inside := known.function_lt mem
    rw [same, List.mem_singleton.mp here] at inside
    exact absurd inside (Nat.lt_irrefl _)

end

theorem DraftKept.entry (known : DraftKept src d) (entry : Entry src d d') : DraftKept src d' := by
  have built := known.built
  have kept := known.kept
  cases entry with
  | filename unquoted =>
    exact known.of_functions (built.header _ _ _)
      { kept with sourceFilename := by simpa using unquoted } rfl
  | datalayout unquoted =>
    exact known.of_functions (built.header _ _ _)
      { kept with datalayout := by simpa using unquoted } rfl
  | triple unquoted =>
    exact known.of_functions (built.header _ _ _)
      { kept with triple := by simpa using unquoted } rfl
  | comdat line =>
    exact known.of_functions (built.addComdat _)
      { kept with comdats := forall_mem_snoc kept.comdats line } rfl
  | group line =>
    exact known.of_functions (built.addAttributeGroup _)
      { kept with groups := forall_mem_snoc kept.groups line } rfl
  | global readable stable ok =>
    have added := built.addGlobal ok
    obtain ⟨-, -, rfl⟩ := Module.addGlobal_eq_ok.mp ok
    exact known.of_functions added
      { kept with
        globals := forall_mem_snoc kept.globals readable
        initials := forall_mem_snoc kept.initials stable } rfl
  | metadata node cut =>
    exact known.of_functions (built.addMetadata _ _) { kept with
      nodes := fun e mem => (mem_insertNode mem).elim (fun same => same ▸ cut.text) (kept.nodes e) } rfl
  | named name cut =>
    exact known.of_functions (built.addNamedMetadata _ _)
      { kept with named := forall_mem_snoc kept.named ⟨name, cut.text⟩ } rfl
  | declaration headed trail ok =>
    obtain ⟨free, -, rfl⟩ := Module.addFunction_eq_ok.mp ok
    exact known.addDeclared headed free trail
  | definition headed trail ok opens source ends =>
    obtain ⟨free, rfl, rfl⟩ := Module.addFunction_eq_ok.mp ok
    exact known.addDefined headed free ⟨_, _, _, rfl, opens, source, ends⟩ trail

theorem Entry.name_eq (entry : Entry src d d') : d'.module.name = d.module.name := by
  cases entry with
  | global _ _ ok => rw [(Module.addGlobal_eq_ok.mp ok).2.2]
  | declaration _ _ ok => rw [(Module.addFunction_eq_ok.mp ok).2.2]
  | definition _ _ ok => rw [(Module.addFunction_eq_ok.mp ok).2.2]
  | _ => rfl

private theorem draftKept_new (src : List Char) (name : String) :
    DraftKept src { module := { name } } where
  built := .new name
  kept := by constructor <;> simp
  headed := by simp
  declared := by simp
  defined := by simp
  ids := List.nodup_nil

/-- What all the entities of a text leave. -/
theorem entities_read {name : String} {ts rest : List Lexeme} {u : Unit} (lexed : lex src = .ok ts)
    (read : Reads (readEntities src) ts { module := { name } } u rest d) :
    DraftKept src d ∧ d.module.name = name := by
  have source : Source src ts := ⟨[], lexFrom_eq_ok.mp lexed⟩
  obtain ⟨-, known⟩ := (reads_whileNext.mp read).preserves
    (P := fun _ left d => Source src left ∧ DraftKept src d ∧ d.module.name = name) (by
      rintro _ t left now first next between after picked ⟨source, known, same⟩ round
      obtain rfl := Option.some.inj picked
      have entry := entity_read source round
      exact ⟨source.suffix (round.suffix.trans (List.suffix_cons _ _)), known.entry entry,
        entry.name_eq.trans same⟩)
    ⟨source, draftKept_new src name, rfl⟩
  exact known

/-- A module of which these bodies are still to be read. -/
structure PartlyFilled (src : List Char) (bodies : List (FuncId × List Lexeme)) (m : Module) :
    Prop where
  built : m.Built
  kept : m.TextKept
  filled : ∀ k f, m.functions[k]? = some f → ⟨k⟩ ∉ bodies.map (·.1) → f.FromText m
  left : ∀ b ∈ bodies, Delimited src b.2 ∧ ∃ f, m.function? b.1 = some f ∧ f.Headed ∧
    ∃ ts, Raw f.attrs.trail ts ∧ ∀ u ∈ ts, u.token ≠ .punct .lbrace
  ids : (bodies.map (·.1)).Nodup

theorem DraftKept.partlyFilled (known : DraftKept src d) : PartlyFilled src d.bodies d.module where
  built := known.built
  kept := known.kept
  filled := fun k f here outside =>
    (known.headed f (List.mem_of_getElem? here)).declared (known.declared k f here outside)
  left := by
    intro b mem
    obtain ⟨delimited, f, found, trail⟩ := known.defined b mem
    exact ⟨delimited, f, found, known.headed f (List.mem_of_getElem? found), trail⟩
  ids := known.ids

private theorem sameSize_setFunction (m : Module) (id : FuncId) (f : Function) :
    m.SameSize (m.setFunction id f) := ⟨rfl, by simp [Module.setFunction]⟩

theorem fillFunction_eq (m : Module) (id : FuncId) (body : List Lexeme) :
    fillFunction m (id, body) = (Failure.present (m.function? id) >>= fun f =>
      readBody m.symbol? body { function := f } >>= fun r =>
        .ok (m.setFunction id r.2.2.function)) := by
  change (Failure.present ((m.function? id).map fun f => (f, m)) >>= fun lent =>
    readBody lent.2.symbol? body { function := lent.1 } >>= fun r =>
      .ok (lent.2.setFunction id r.2.2.function)) = _
  cases m.function? id <;> rfl

theorem fillFunction_eq_ok {m' : Module} {id : FuncId} {body : List Lexeme} :
    fillFunction m (id, body) = .ok m' ↔ ∃ f rest scope, m.function? id = some f ∧
      Reads (readBody m.symbol?) body { function := f } () rest scope ∧
      m' = m.setFunction id scope.function := by
  simp only [fillFunction_eq, Failure.bind_eq_ok, Failure.present_eq_ok, Except.ok.injEq]
  constructor
  · rintro ⟨f, found, ⟨u, left, scope⟩, run, rfl⟩
    exact ⟨f, left.val, scope, found, reads_of_eq_ok run, rfl⟩
  · rintro ⟨f, rest, scope, found, ⟨suffix, run⟩, rfl⟩
    exact ⟨f, found, _, run, rfl⟩

theorem fillFunction_error {id : FuncId} {body : List Lexeme} {e : Failure Complaint}
    (failed : fillFunction m (id, body) = .error e) : e = .outOfRange ∧ m.function? id = none ∨
      ∃ f, m.function? id = some f ∧ readBody m.symbol? body { function := f } = .error e := by
  rw [fillFunction_eq] at failed
  cases found : m.function? id with
  | none =>
    rw [found] at failed
    cases failed
    exact .inl ⟨rfl, rfl⟩
  | some f =>
    rw [found] at failed
    rcases Failure.bind_eq_error.mp failed with missing | ⟨_, ⟨⟩, more⟩
    · cases missing
    · rcases Failure.bind_eq_error.mp more with reading | ⟨_, -, filled⟩
      · exact .inr ⟨f, rfl, reading⟩
      · cases filled

/-- What the tokens of a text make of a module with no symbols. -/
def parseTokens (name : String) (src : List Char) (ts : List Lexeme) :
    Except (Failure Complaint) Module := readModule ({ name } : Module) src ts

theorem parseTokens_eq_ok {src : List Char} {name : String} {ts : List Lexeme} :
    parseTokens name src ts = .ok m ↔ ∃ rest d,
      Reads (readEntities src) ts ({ module := { name } } : Draft) () rest d ∧
        d.bodies.foldlM fillFunction d.module = .ok m := by
  change (readEntities src ts ({ module := { name } } : Draft) >>= fun r =>
    r.2.2.bodies.foldlM fillFunction r.2.2.module) = .ok m ↔ _
  rw [Failure.bind_eq_ok]
  constructor
  · rintro ⟨⟨u, left, d⟩, run, filled⟩
    exact ⟨left.val, d, reads_of_eq_ok run, filled⟩
  · rintro ⟨rest, d, ⟨suffix, run⟩, filled⟩
    exact ⟨_, run, filled⟩

theorem parseTokens_error {src : List Char} {name : String} {e : Failure Complaint}
    (failed : parseTokens name src ts = .error e) :
    readEntities src ts ({ module := { name } } : Draft) = .error e ∨
      ∃ rest d, Reads (readEntities src) ts ({ module := { name } } : Draft) () rest d ∧
        d.bodies.foldlM fillFunction d.module = .error e := by
  change (readEntities src ts ({ module := { name } } : Draft) >>= fun r =>
    r.2.2.bodies.foldlM fillFunction r.2.2.module) = _ at failed
  rcases Failure.bind_eq_error.mp failed with reading | ⟨⟨u, left, d⟩, run, filling⟩
  · exact .inl reading
  · exact .inr ⟨left.val, d, reads_of_eq_ok run, filling⟩

theorem function?_setFunction {id k : FuncId} {f : Function} (other : k ≠ id) :
    (m.setFunction id f).function? k = m.function? k := by
  have apart : id.index ≠ k.index := by
    intro same
    cases id
    cases k
    exact other (congrArg _ same.symm)
  exact List.getElem?_set_ne apart

theorem PartlyFilled.fill {m' : Module} {b : FuncId × List Lexeme}
    {bodies : List (FuncId × List Lexeme)} (known : PartlyFilled src (b :: bodies) m)
    (ok : fillFunction m b = .ok m') : PartlyFilled src bodies m' := by
  obtain ⟨id, body⟩ := b
  obtain ⟨f, rest, scope, found, read, rfl⟩ := fillFunction_eq_ok.mp ok
  obtain ⟨delimited, g, here, headed, trail⟩ := known.left _ List.mem_cons_self
  obtain rfl := Option.some.inj (found.symm.trans here)
  obtain ⟨labels, filled, settled, -⟩ := readBody_filled headed.fresh read
  obtain ⟨first, others⟩ := List.nodup_cons.mp known.ids
  have size := sameSize_setFunction m id scope.function
  have lettered : ∀ t ∈ body, Lettered t.token := by
    obtain ⟨brace, -, -, -, -, source, -⟩ := delimited
    exact fun t mem => source.lettered t (.tail _ mem)
  refine ⟨known.built.setFunction found filled.grown.steps, TextKept.functions known.kept _, ?_, ?_,
    others⟩
  · intro k h there outside
    by_cases same : (⟨k⟩ : FuncId) = id
    · subst same
      obtain ⟨inside, -⟩ := List.getElem?_eq_some_iff.mp found
      obtain rfl : scope.function = h := by
        simpa [Module.setFunction, List.getElem?_set_self inside] using there
      exact (filled.fromText headed trail labels settled lettered).congr size
    · have old : m.function? ⟨k⟩ = some h := (function?_setFunction same).symm.trans there
      refine (known.filled k h old fun mem => ?_).congr size
      exact (List.mem_cons.mp mem).elim same outside
  · intro b mem
    obtain ⟨delimited, g, there, known⟩ := known.left b (.tail _ mem)
    have other : b.1 ≠ id := by
      have among : b.1 ∈ bodies.map (·.1) := List.mem_map_of_mem mem
      rintro rfl
      exact first among
    exact ⟨delimited, g, (function?_setFunction other).trans there, known⟩

private theorem fillFunction_name {m' : Module} {b : FuncId × List Lexeme}
    (ok : fillFunction m b = .ok m') :
    m'.name = m.name := by
  obtain ⟨f, rest, scope, -, -, rfl⟩ := fillFunction_eq_ok.mp ok
  rfl

/-- All bodies are filled one after the other. -/
theorem PartlyFilled.run {m' : Module} {bodies : List (FuncId × List Lexeme)}
    (known : PartlyFilled src bodies m) (ok : bodies.foldlM fillFunction m = .ok m') :
    PartlyFilled src [] m' ∧ m'.name = m.name := by
  induction bodies generalizing m with
  | nil =>
    cases ok
    exact ⟨known, rfl⟩
  | cons b bodies ih =>
    rw [List.foldlM_cons] at ok
    obtain ⟨m₁, first, more⟩ := Failure.bind_eq_ok.mp ok
    obtain ⟨filled, same⟩ := ih (known.fill first) more
    exact ⟨filled, same.trans (fillFunction_name first)⟩

end

end Listing

end BlockTally
