import BlockTally.Proofs.Listing.Globals
import BlockTally.Proofs.Listing.Registered

/-! Reading a written module again. Main statement: `parse_written`. -/
namespace BlockTally.Listing
open Text Read

/-- What the text of a function takes for granted, but for the code in it. -/
structure FunctionEnterable (m : Module) (f : Function) : Prop where
  header : HeaderReadable f
  trail : KeptTrail f
  unquoted : ∀ b ∈ f.blocks, Unquoted b.name
  known : ∀ inst ∈ f.instructions, InstructionKnown m f inst

/-- What the text of a function takes for granted. -/
structure FunctionReadable (m : Module) (f : Function) : Prop where
  header : HeaderReadable f
  trail : KeptTrail f
  unquoted : ∀ b ∈ f.blocks, Unquoted b.name
  labels : (f.blocks.map (·.name)).Nodup
  insts : ∀ inst ∈ f.instructions, InstructionReadable m f inst
  settled : ∀ id ∈ f.mentions, id ∈ f.params ++ f.results
  entry : ∀ b ∈ f.blocks.head?, b.insts ≠ []

/-- What the text of a module takes for granted. -/
structure Printable (m : Module) : Prop where
  name : Flat m.name
  sourceFilename : ∀ text ∈ m.sourceFilename, Unquoted text
  datalayout : ∀ text ∈ m.datalayout, Unquoted text
  triple : ∀ text ∈ m.triple, Unquoted text
  distinct : m.symbolNames.Nodup
  ordered : m.metadata.Pairwise (·.1 < ·.1)
  comdats : ∀ text ∈ m.comdats, KeptLine .comdatRef text
  globals : ∀ g ∈ m.globals, GlobalReadable g
  functions : ∀ f ∈ m.functions, FunctionReadable m f
  groups : ∀ text ∈ m.attributeGroups, KeptLine (.word "attributes") text
  named : ∀ node ∈ m.namedMetadata, NodeName node.1 ∧ KeptNode node.2
  nodes : ∀ node ∈ m.metadata, KeptNode node.2

/-- What the text of a module takes for granted, but for the code in it. -/
structure Enterable (m : Module) : Prop where
  name : Flat m.name
  sourceFilename : ∀ text ∈ m.sourceFilename, Unquoted text
  datalayout : ∀ text ∈ m.datalayout, Unquoted text
  triple : ∀ text ∈ m.triple, Unquoted text
  distinct : m.symbolNames.Nodup
  ordered : m.metadata.Pairwise (·.1 < ·.1)
  comdats : ∀ text ∈ m.comdats, KeptLine .comdatRef text
  globals : ∀ g ∈ m.globals, GlobalReadable g
  functions : ∀ f ∈ m.functions, FunctionEnterable m f
  groups : ∀ text ∈ m.attributeGroups, KeptLine (.word "attributes") text
  named : ∀ node ∈ m.namedMetadata, NodeName node.1 ∧ KeptNode node.2
  nodes : ∀ node ∈ m.metadata, KeptNode node.2

theorem FunctionReadable.enterable {m : Module} {f : Function} (ok : FunctionReadable m f) :
    FunctionEnterable m f :=
  ⟨ok.header, ok.trail, ok.unquoted, fun inst mem => (ok.insts inst mem).known⟩

theorem Printable.enterable {m : Module} (ok : Printable m) : Enterable m :=
  { ok with functions := fun f mem => (ok.functions f mem).enterable }

theorem Enterable.printable {m : Module} (ok : Enterable m)
    (readable : ∀ f ∈ m.functions, FunctionReadable m f) : Printable m :=
  { ok with functions := readable }

/-! Looking up symbols. -/

section
variable {m m' : Module}

private theorem fresh_of_not_mem {name : String} (free : name ∉ m.symbolNames) :
    m.symbol? name = none := by
  rw [← Option.not_isSome_iff_eq_none, Module.symbol?_isSome]
  exact free

end

/-! The front of a module, up to its symbols. -/

section
variable {src : List Char} {m M : Module} {B : List (FuncId × List Lexeme) → Prop}

private theorem yields_heading {name : String} (flat : Flat name) {P : Draft → Prop} :
    Yields src ("; ModuleID = '" ++ name ++ "'\n") P P := by
  refine yields_gap ⟨[], ?_, rfl⟩
  have comment : Lexes (fun post => ∀ c ∈ post.head?, c = '\n')
      (';' :: (" ModuleID = '" ++ name ++ "'").toList) [] := by
    refine lexes_comment fun c mem => ?_
    simp only [String.toList_append, List.mem_append] at mem
    rcases mem with (front | inside) | back
    · revert c
      decide
    · exact flat c inside
    · rw [List.mem_singleton.mp back]
      decide
  have newline : Lexes Anywhere ['\n'] [] := lexes_gap (by decide)
  have line := comment.append newline fun post _ => by
    rintro _ ⟨⟩
    rfl
  simpa using line

private theorem yields_comdats {texts : List String}
    (kept : ∀ text ∈ texts, KeptLine .comdatRef text) (unset : M.comdats = []) :
    Yields src (sectionText texts) (Drafted M B) (Drafted { M with comdats := texts } B) := by
  have lines : Yields src (sectionText (texts.map id)) (Drafted { M with comdats := [] } B) _ :=
    yields_lines (P := fun done => Drafted { M with comdats := done } B)
      fun done text later whole => yields_comdat (kept text (by rw [whole]; simp))
  rw [List.map_id] at lines
  rw [← unset] at lines
  exact lines

private theorem yields_groups {texts : List String}
    (kept : ∀ text ∈ texts, KeptLine (.word "attributes") text) (unset : M.attributeGroups = []) :
    Yields src (sectionText texts) (Drafted M B) (Drafted { M with attributeGroups := texts } B) := by
  have lines : Yields src (sectionText (texts.map id)) (Drafted { M with attributeGroups := [] } B) _ :=
    yields_lines (P := fun done => Drafted { M with attributeGroups := done } B)
      fun done text later whole => yields_attributeGroup (kept text (by rw [whole]; simp))
  rw [List.map_id] at lines
  rw [← unset] at lines
  exact lines

private theorem yields_globals {globals : List Global} (ok : ∀ g ∈ globals, GlobalReadable g)
    (distinct : (globals.map (·.name)).Nodup) (unset : M.globals = []) (none : M.functions = []) :
    Yields src (sectionText (globals.map globalText)) (Drafted M B)
      (Drafted { M with globals := globals.map (·.reread) } B) := by
  have lines : Yields src (sectionText (globals.map globalText))
      (Drafted { M with globals := List.map Global.reread [] } B) _ :=
    yields_lines (P := fun done => Drafted { M with globals := done.map Global.reread } B)
      fun done g later whole => by
        rw [List.map_append, List.map_singleton]
        refine yields_global (ok g (by rw [whole]; simp)) (fresh_of_not_mem ?_)
        rw [whole, List.map_append, List.map_cons] at distinct
        have apart := (List.nodup_append.mp distinct).2.2
        intro mem
        have known : g.name ∈ done.map (·.name) := by
          simpa [Module.symbolNames, none, Global.reread, Function.comp_def] using mem
        exact apart _ known _ List.mem_cons_self rfl
  rw [List.map_nil, ← unset] at lines
  exact lines

/-! Metadata, the named nodes first. -/

/-- A node with its name or its number. -/
abbrev Node := (String × String) ⊕ (UInt32 × String)

def Node.text : Node → String
  | .inl (name, text) => "!" ++ name ++ " = " ++ text
  | .inr (node, text) => "!" ++ toString node.toNat ++ " = " ++ text

def Node.addTo (m : Module) : Node → Module
  | .inl (name, text) => m.addNamedMetadata name text
  | .inr (node, text) => m.addMetadata node text

def Node.Kept : Node → Prop
  | .inl node => NodeName node.1 ∧ KeptNode node.2
  | .inr node => KeptNode node.2

def nodes (m : Module) : List Node := m.namedMetadata.map .inl ++ m.metadata.map .inr

private theorem insertNode_last {node : UInt32} {text : String} {entries : List (UInt32 × String)}
    (last : ∀ e ∈ entries, e.1 < node) :
    Module.insertNode node text entries = entries ++ [(node, text)] := by
  induction entries with
  | nil => rfl
  | cons e entries ih =>
    have before := last e List.mem_cons_self
    have apart : ¬ node < e.1 ∧ node ≠ e.1 := by
      constructor
      · exact UInt32.lt_asymm before
      · exact (UInt32.ne_of_lt before).symm
    rw [Module.insertNode, if_neg apart.1, if_neg apart.2,
      ih fun f mem => last f (List.mem_cons_of_mem _ mem)]
    rfl

private theorem foldl_metadata {entries : List (UInt32 × String)} {M : Module}
    (ordered : (M.metadata ++ entries).Pairwise (·.1 < ·.1)) :
    (entries.map Sum.inr).foldl Node.addTo M = { M with metadata := M.metadata ++ entries } := by
  induction entries generalizing M with
  | nil => rw [List.append_nil]; rfl
  | cons e entries ih =>
    have last : ∀ d ∈ M.metadata, d.1 < e.1 := fun d mem =>
      (List.pairwise_append.mp ordered).2.2 d mem e List.mem_cons_self
    have added : Node.addTo M (.inr e) = { M with metadata := M.metadata ++ [e] } := by
      rw [Node.addTo, Module.addMetadata, insertNode_last last]
    rw [List.map_cons, List.foldl_cons, added, ih (by simpa using ordered)]
    simp

private theorem foldl_named {entries : List (String × String)} {M : Module} :
    (entries.map Sum.inl).foldl Node.addTo M =
      { M with namedMetadata := M.namedMetadata ++ entries } := by
  induction entries generalizing M with
  | nil => rw [List.append_nil]; rfl
  | cons e entries ih =>
    rw [List.map_cons, List.foldl_cons, ih]
    simp [Node.addTo, Module.addNamedMetadata]

private theorem foldl_nodes (ordered : m.metadata.Pairwise (·.1 < ·.1))
    (unnamed : M.namedMetadata = []) (unset : M.metadata = []) : (nodes m).foldl Node.addTo M =
      { M with namedMetadata := m.namedMetadata, metadata := m.metadata } := by
  rw [nodes, List.foldl_append, foldl_named, foldl_metadata (by simpa [unset] using ordered)]
  simp [unnamed, unset]

private theorem yields_nodes {nodes : List Node} (kept : ∀ node ∈ nodes, node.Kept) :
    Yields src (sectionText (nodes.map Node.text)) (Drafted M B)
      (Drafted (nodes.foldl Node.addTo M) B) := by
  have lines : Yields src (sectionText (nodes.map Node.text))
      (Drafted (([] : List Node).foldl Node.addTo M) B) _ :=
    yields_lines (P := fun done => Drafted (done.foldl Node.addTo M) B) fun done node later whole => by
      rw [List.foldl_append]
      have here := kept node (by rw [whole]; simp)
      cases node with
      | inl node => exact yields_namedMetadata here.1 here.2
      | inr node => exact yields_metadata here
  exact lines

/-! Functions. -/

/-- The bodies that are left for later, in the order of their functions. -/
def BodiesKept (m : Module) (functions : List (Function × Nat))
    (bodies : List (FuncId × List Lexeme)) : Prop :=
  List.Forall₂ (fun body f => body.1 = ⟨f.2⟩ ∧ BodyKept m f.1 body.2) bodies
    (functions.filter (!·.1.isDeclaration))

def writtenFunction (m : Module) (f : Function) : String := "\n" ++ (functionText m f).getD ""

private theorem fresh_function {done later : List Function} {f : Function}
    (distinct : m.symbolNames.Nodup) (whole : m.functions = done ++ f :: later) :
    f.name ∉ ({ M with globals := m.globals.map (·.reread)
                       functions := done.map (·.opened m) } : Module).symbolNames := by
  rw [Module.symbolNames, whole, List.map_append, List.map_cons] at distinct
  intro mem
  have known : f.name ∈ m.globals.map (·.name) ++ done.map (·.name) := by
    simpa [Module.symbolNames, Global.reread, Function.opened, Function.reread,
      Function.comp_def] using mem
  rw [← List.append_assoc] at distinct
  exact (List.nodup_append.mp distinct).2.2 _ known _ List.mem_cons_self rfl

variable (src) in
private theorem yields_function {done later : List Function} {f : Function}
    (ok : FunctionEnterable m f)
    (distinct : m.symbolNames.Nodup) (whole : m.functions = done ++ f :: later)
    (globals : M.globals = m.globals.map (·.reread)) :
    (functionText m f).isSome ∧ Yields src (writtenFunction m f)
      (Drafted { M with functions := done.map (·.opened m) } (BodiesKept m done.zipIdx))
      (Drafted { M with functions := (done ++ [f]).map (·.opened m) }
        (BodiesKept m (done ++ [f]).zipIdx)) := by
  have fresh : ({ M with functions := done.map (·.opened m) } : Module).symbol? f.name = none := by
    refine fresh_of_not_mem ?_
    have free := fresh_function (M := M) distinct whole
    rwa [← globals] at free
  have grown : (done ++ [f]).zipIdx = done.zipIdx ++ [(f, done.length)] := by
    rw [List.zipIdx_append]
    simp
  rw [grown, List.map_append, List.map_singleton]
  by_cases declared : f.blocks = []
  · obtain ⟨text, written, yields⟩ := yields_declaration src (m := m)
      (B := BodiesKept m done.zipIdx) ok.header ok.trail declared fresh
    refine ⟨by rw [written]; rfl, ?_⟩
    have same : BodiesKept m (done.zipIdx ++ [(f, done.length)]) = BodiesKept m done.zipIdx := by
      funext bodies
      simp [BodiesKept, Function.isDeclaration, declared]
    rw [writtenFunction, written, same]
    exact (yields_gap spells_break).append yields
  · obtain ⟨text, written, yields⟩ := yields_definition src (m := m)
      (B := BodiesKept m done.zipIdx) ok.header ok.trail ok.unquoted ok.known declared fresh
    refine ⟨by rw [written]; rfl, ?_⟩
    rw [writtenFunction, written]
    refine (yields_gap spells_break).append (yields.imp fun d => ?_)
    rintro ⟨module, before, body, bodies, kept, here⟩
    refine ⟨module, ?_⟩
    have defined : [(f, done.length)].filter (!·.1.isDeclaration) = [(f, done.length)] := by
      simp [Function.isDeclaration, declared]
    rw [BodiesKept, bodies, List.filter_append, defined]
    refine List.rel_append kept (.cons ⟨?_, here⟩ .nil)
    simp

private theorem yields_functions (ok : ∀ f ∈ m.functions, FunctionEnterable m f)
    (distinct : m.symbolNames.Nodup) (globals : M.globals = m.globals.map (·.reread))
    (unset : M.functions = []) :
    Yields src (.join (m.functions.map (writtenFunction m))) (Drafted M (· = []))
      (Drafted { M with functions := m.functions.map (·.opened m) }
        (BodiesKept m m.functions.zipIdx)) := by
  have each : Yields src (.join (m.functions.map (writtenFunction m)))
      (Drafted { M with functions := ([] : List Function).map (·.opened m) }
        (BodiesKept m ([] : List Function).zipIdx)) _ :=
    yields_join (P := fun done => Drafted { M with functions := done.map (·.opened m) }
      (BodiesKept m done.zipIdx)) fun done f later whole =>
        (yields_function src (ok f (by rw [whole]; simp)) distinct whole globals).2
  have nothing : ∀ d, Drafted M (· = []) d → Drafted { M with functions := [] }
      (BodiesKept m ([] : List Function).zipIdx) d := by
    rintro d ⟨module, bodies⟩
    refine ⟨by rw [module, ← unset], ?_⟩
    rw [bodies]
    exact .nil
  obtain ⟨ts, lexes, starts, goes⟩ := each
  exact ⟨ts, lexes, starts, fun o rest d place behind next holds =>
    goes o rest d place behind next (nothing d holds)⟩

end

/-! The whole text. -/

/-- The module when the bodies of the functions in `done` are read, but not those of the others. -/
def partlyRead (m : Module) (done later : List Function) : Module :=
  { m.reread with functions := done.map (·.reread m) ++ later.map (·.opened m) }

section
variable {m : Module}

private theorem opened_declaration {f : Function} (declared : f.blocks = []) :
    f.opened m = f.reread m := by
  have order : f.order = f.params := by
    rw [Function.order, Function.mentions, Function.instructions, declared]
    rfl
  rw [Function.opened, Function.reread, declared, order]
  rfl

private theorem bodyReadable {m' : Module} {f : Function} (ok : FunctionReadable m f)
    (resolved : Resolved m m' f) : BodyReadable m m' f where
  resolved := resolved
  settled := ok.settled
  insts := ok.insts
  entry := ok.entry

/-- Only the symbols of the module matter while a body is read. -/
theorem resolved_partlyRead (distinct : m.symbolNames.Nodup) {f : Function}
    {done later : List Function} (whole : m.functions = done ++ f :: later) (header : HeaderReadable f)
    (labels : (f.blocks.map (·.name)).Nodup) (defined : f.blocks ≠ []) :
    Resolved m (partlyRead m done (f :: later)) f := by
  have globals : (partlyRead m done (f :: later)).globals.map (·.name) = m.globals.map (·.name) := by
    simp [partlyRead, Module.reread, Global.reread, Function.comp_def]
  have functions : (partlyRead m done (f :: later)).functions.map (·.name) =
      m.functions.map (·.name) := by
    rw [whole]
    simp [partlyRead, Function.reread, Function.opened, Function.comp_def]
  exact
    { numbered := header.numbered
      body := by simp [Function.isDeclaration, defined]
      labels
      globals := fun _ _ found => by
        rw [Module.symbol?_congr globals functions]
        exact (Module.symbol?_eq_global_iff distinct).mpr ⟨_, found, rfl⟩
      functions := fun _ _ found => by
        rw [Module.symbol?_congr globals functions]
        exact (Module.symbol?_eq_function_iff distinct).mpr ⟨_, found, rfl⟩ }

theorem function?_partlyRead (m : Module) (done later : List Function) (f : Function) :
    (partlyRead m done (f :: later)).function? ⟨done.length⟩ = some (f.opened m) := by
  simp [Module.function?, partlyRead]

theorem fillFunction_opened (distinct : m.symbolNames.Nodup) {f : Function}
    {done later : List Function} (whole : m.functions = done ++ f :: later)
    (ok : FunctionReadable m f) (defined : f.blocks ≠ []) {body : List Lexeme}
    (kept : BodyKept m f body) :
    fillFunction (partlyRead m done (f :: later)) (⟨done.length⟩, body) =
      .ok (partlyRead m (done ++ [f]) later) := by
  have resolved := resolved_partlyRead distinct whole ok.header ok.labels defined
  obtain ⟨entry, blocks, inside, rest, blocks_eq, rfl, tokens⟩ := kept
  obtain ⟨s, read, filled⟩ := takes_body (bodyReadable ok resolved) blocks_eq inside rest _
    tokens trivial rfl
  refine fillFunction_eq_ok.mpr ⟨_, rest, s, function?_partlyRead m done later f, read, ?_⟩
  simp [Module.setFunction, partlyRead, filled]

theorem bodiesKept_declaration {f : Function} (declared : f.blocks = []) {k : Nat}
    {later : List (Function × Nat)} {bodies : List (FuncId × List Lexeme)} :
    BodiesKept m ((f, k) :: later) bodies ↔ BodiesKept m later bodies := by
  simp [BodiesKept, Function.isDeclaration, declared]

theorem bodiesKept_definition {f : Function} (defined : f.blocks ≠ []) {k : Nat}
    {later : List (Function × Nat)} {bodies : List (FuncId × List Lexeme)} :
    BodiesKept m ((f, k) :: later) bodies ↔ ∃ body rest, bodies = (⟨k⟩, body) :: rest ∧
      BodyKept m f body ∧ BodiesKept m later rest := by
  have here : ((f, k) :: later).filter (!·.1.isDeclaration) =
      (f, k) :: later.filter (!·.1.isDeclaration) := by
    simp [Function.isDeclaration, defined]
  rw [BodiesKept, here, List.forall₂_cons_right_iff]
  constructor
  · rintro ⟨⟨_, body⟩, rest, ⟨rfl, kept⟩, others, rfl⟩
    exact ⟨body, rest, rfl, kept, others⟩
  · rintro ⟨body, rest, rfl, kept, others⟩
    exact ⟨_, rest, ⟨rfl, kept⟩, others, rfl⟩

theorem partlyRead_declaration {f : Function} (declared : f.blocks = []) (done later : List Function) :
    partlyRead m done (f :: later) = partlyRead m (done ++ [f]) later := by
  simp [partlyRead, opened_declaration declared]

/-- When the bodies of the functions in `done` are read, those of the others can be. -/
theorem fillFunctions (ok : Printable m) {later done : List Function}
    (whole : m.functions = done ++ later) {bodies : List (FuncId × List Lexeme)}
    (kept : BodiesKept m (later.zipIdx done.length) bodies) :
    bodies.foldlM fillFunction (partlyRead m done later) = .ok m.reread := by
  induction later generalizing done bodies with
  | nil =>
    obtain rfl : bodies = [] := by simpa [BodiesKept] using kept
    rw [List.append_nil] at whole
    simp only [partlyRead, ← whole, List.map_nil, List.append_nil]
    rfl
  | cons f later ih =>
    have next : m.functions = (done ++ [f]) ++ later := by simp [whole]
    have size : done.length + 1 = (done ++ [f]).length := by simp
    rw [List.zipIdx_cons, size] at kept
    by_cases declared : f.blocks = []
    · rw [partlyRead_declaration declared]
      exact ih next ((bodiesKept_declaration declared).mp kept)
    · obtain ⟨body, bodies, rfl, here, others⟩ := (bodiesKept_definition declared).mp kept
      have readable := ok.functions f (by rw [whole]; simp)
      rw [List.foldlM_cons, fillFunction_opened ok.distinct whole readable declared here]
      exact ih next others

/-- The text before the functions. -/
def frontText (m : Module) : String :=
  "; ModuleID = '" ++ m.name ++ "'\n" ++
    propertyText "source_filename" m.sourceFilename ++
    propertyText "target datalayout" m.datalayout ++
    propertyText "target triple" m.triple ++
    sectionText m.comdats ++
    sectionText (m.globals.map globalText)

/-- The text of a module of which every function has one. -/
def writtenModule (m : Module) : String :=
  frontText m ++ .join (m.functions.map (writtenFunction m)) ++ sectionText m.attributeGroups ++
    sectionText ((nodes m).map Node.text)

theorem map_text_nodes (m : Module) : (nodes m).map Node.text =
    m.namedMetadata.map (fun (name, text) => "!" ++ name ++ " = " ++ text) ++
      m.metadata.map fun (node, text) => "!" ++ toString node.toNat ++ " = " ++ text := by
  simp [nodes, Node.text, Function.comp_def]

theorem moduleText_eq (texts : ∀ f ∈ m.functions, (functionText m f).isSome) :
    moduleText m = some (writtenModule m) := by
  have each : ∀ f ∈ m.functions, ((functionText m f).bind fun text => some ("\n" ++ text)) =
      some (writtenFunction m f) := by
    intro f mem
    obtain ⟨text, written⟩ := Option.isSome_iff_exists.mp (texts f mem)
    rw [writtenFunction, written]
    rfl
  have functions : m.functions.mapM (fun f => do
      let text ← functionText m f
      pure ("\n" ++ text)) = some (m.functions.map (writtenFunction m)) := mapM_some each
  rw [moduleText, functions, ← map_text_nodes]
  rfl

/-- Everything that is read before the functions. -/
theorem yields_front (src : List Char) (ok : Enterable m) (name : String)
    {P : List (FuncId × List Lexeme) → Prop} :
    Yields src (frontText m) (Drafted { name } P)
      (Drafted { m.reread with
        name, functions := [], attributeGroups := [], namedMetadata := [], metadata := [] } P) := by
  have distinct := (List.nodup_append.mp ok.distinct).1
  have properties : Yields src _ (Drafted { name } P) (Drafted
      { name, sourceFilename := m.sourceFilename, datalayout := m.datalayout
        triple := m.triple } P) :=
    (((yields_heading ok.name).append (yields_filename ok.sourceFilename rfl)).append
      (yields_datalayout ok.datalayout rfl)).append (yields_triple ok.triple rfl)
  exact (properties.append (yields_comdats ok.comdats rfl)).append
    (yields_globals ok.globals distinct rfl rfl)

theorem yields_module (src : List Char) (ok : Enterable m) (name : String) :
    Yields src (writtenModule m) (Drafted { name } (· = []))
      (Drafted { partlyRead m [] m.functions with name } (BodiesKept m m.functions.zipIdx)) := by
  have kept : ∀ node ∈ nodes m, node.Kept := by
    intro node mem
    rcases List.mem_append.mp mem with named | numbered
    · obtain ⟨entry, here, rfl⟩ := List.mem_map.mp named
      exact ok.named entry here
    · obtain ⟨entry, here, rfl⟩ := List.mem_map.mp numbered
      exact ok.nodes entry here
  have symbols := (yields_front src ok name (P := (· = []))).append
    (yields_functions ok.functions ok.distinct rfl rfl)
  have whole := (symbols.append (yields_groups ok.groups rfl)).append (yields_nodes kept)
  rw [foldl_nodes ok.ordered rfl rfl] at whole
  exact whole

theorem Enterable.moduleText (ok : Enterable m) : moduleText m = some (writtenModule m) := by
  refine moduleText_eq fun f mem => ?_
  obtain ⟨done, later, whole⟩ := List.append_of_mem mem
  exact (yields_function [] (M := { m.reread with functions := [] }) (ok.functions f mem)
    ok.distinct whole rfl).1

/-- The entities of a written module, under any name. Only the bodies are still to be read. -/
theorem entities_written (ok : Enterable m) (name : String) : ∃ ts d,
    lex (writtenModule m).toList = .ok ts ∧
      Reads (readEntities (writtenModule m).toList) ts ({ module := { name } } : Draft) () [] d ∧
      d.module = { partlyRead m [] m.functions with name } ∧
      BodiesKept m m.functions.zipIdx d.bodies := by
  obtain ⟨ts, lexes, -, goes⟩ := yields_module (writtenModule m).toList ok name
  have place : At (writtenModule m).toList 0 (writtenModule m).toList := ⟨[], [], by simp, rfl⟩
  obtain ⟨d, read, module, bodies⟩ := goes 0 [] { module := { name } } place nofun nofun ⟨rfl, rfl⟩
  have lexed : Lexed 0 (writtenModule m).toList (ts.map (·.shift 0)) := by
    simpa using lexes 0 [] [] trivial .nil
  have zero : ts.map (·.shift 0) = ts := by simp [Lexeme.shift_zero]
  rw [zero] at lexed
  rw [zero, List.append_nil] at read
  exact ⟨ts, d, lexed.lexFrom, read.reads, module, bodies⟩

/-- What is written is read again as the same module, but for its new numbers. -/
theorem parse_written (ok : Printable m) : ∃ text, moduleText m = some text ∧
    parse m.name text = .ok m.reread := by
  refine ⟨_, ok.enterable.moduleText, ?_⟩
  obtain ⟨ts, d, lexed, entities, module, bodies⟩ := entities_written ok.enterable m.name
  have filled : d.bodies.foldlM fillFunction d.module = .ok m.reread := by
    rw [module]
    exact fillFunctions ok rfl bodies
  exact parse_eq_ok.mpr ⟨ts, [], d, lexed, entities, filled⟩

end

end BlockTally.Listing
