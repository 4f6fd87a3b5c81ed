import BlockTally.Proofs.Listing.SingleAssignment
import BlockTally.Proofs.Listing.Unbroken

/-! Text that is carried along uninterpreted: attributes, qualifiers, attachments, comdats, attribute
groups and metadata. It is cut from a text as it stands, and the same text is cut again from what is
written of the module. Main statement: `parse_carried`. -/
namespace BlockTally
open Listing Text

/-- The text that a module carries along, in the order of the module. -/
structure Carried where
  attrs : List Attributes
  /-- The qualifiers and the attachments of each variable. -/
  globals : List (String × String)
  comdats : List String
  attributeGroups : List String
  metadata : List (UInt32 × String)
  namedMetadata : List (String × String)
  deriving DecidableEq

def Module.carried (m : Module) : Carried where
  attrs := m.functions.map (·.attrs)
  globals := m.globals.map fun g => (g.qualifiers, g.attachments)
  comdats := m.comdats
  attributeGroups := m.attributeGroups
  metadata := m.metadata
  namedMetadata := m.namedMetadata

theorem Function.FromText.rereadAttrs {m : Module} {f : Function} (known : f.FromText m) :
    f.rereadAttrs = f.attrs := by
  have params : (List.range f.params.length).map f.attrs.param = f.attrs.params := by
    rw [← known.attrs]
    refine List.ext_getElem (by simp) fun k inside there => ?_
    simp [Attributes.param, there]
  rw [Function.rereadAttrs, params]

namespace Listing

section
variable {src : List Char} {m m' : Module} {d d' : Draft}

/-! Bodies carry no such text. -/

theorem PartlyFilled.fill_carried {b : FuncId × List Lexeme} {bodies : List (FuncId × List Lexeme)}
    (known : PartlyFilled src (b :: bodies) m) (ok : fillFunction m b = .ok m') :
    m'.carried = m.carried := by
  obtain ⟨id, body⟩ := b
  obtain ⟨f, rest, scope, found, read, rfl⟩ := fillFunction_eq_ok.mp ok
  obtain ⟨-, g, here, headed, -⟩ := known.left _ List.mem_cons_self
  obtain rfl := Option.some.inj (found.symm.trans here)
  obtain ⟨-, filled, -, -⟩ := readBody_filled headed.fresh read
  have attrs : scope.function.attrs = f.attrs := by rw [filled.grown.frame]
  have same : (m.functions.set id.index scope.function).map (·.attrs) = m.functions.map (·.attrs) := by
    have old : (m.functions.map (·.attrs))[id.index]? = some f.attrs := by
      rw [List.getElem?_map]
      exact congrArg (Option.map (·.attrs)) found
    obtain ⟨inside, place⟩ := List.getElem?_eq_some_iff.mp old
    rw [List.map_set, attrs, ← place, List.set_getElem_self]
  simp only [Module.carried, Module.setFunction, same]

theorem PartlyFilled.carried {bodies : List (FuncId × List Lexeme)}
    (known : PartlyFilled src bodies m) (ok : bodies.foldlM fillFunction m = .ok m') :
    m'.carried = m.carried := by
  induction bodies generalizing m with
  | nil =>
    cases ok
    rfl
  | cons b bodies ih =>
    rw [List.foldlM_cons] at ok
    obtain ⟨m₁, first, more⟩ := Failure.bind_eq_ok.mp ok
    exact (ih (known.fill first) more).trans (known.fill_carried first)

/-- All the text that is carried along is that of the entities. -/
theorem parse_draft {name text : String} (ok : parse name text = .ok m) : ∃ ts rest d,
    lex text.toList = .ok ts ∧
      Reads (readEntities text.toList) ts ({ module := { name } } : Draft) () rest d ∧
      m.carried = d.module.carried := by
  obtain ⟨ts, rest, d, lexed, read, filled⟩ := parse_eq_ok.mp ok
  exact ⟨ts, rest, d, lexed, read, (entities_read lexed read).1.partlyFilled.carried filled⟩

/-! The texts of metadata nodes. -/

/-- Every node of the draft, with a name or with a number, has a text like this. -/
def NodesAll (p : String → Prop) (d : Draft) : Prop :=
  (∀ node ∈ d.module.namedMetadata, p node.2) ∧ ∀ node ∈ d.module.metadata, p node.2

theorem Entry.nodesAll {p : String → Prop} (cut : ∀ text, NodeCut src text → p text)
    (entry : Entry src d d') (all : NodesAll p d) : NodesAll p d' := by
  cases entry with
  | metadata node here =>
    exact ⟨all.1, fun e mem => (mem_insertNode mem).elim (fun same => same ▸ cut _ here) (all.2 e)⟩
  | named known here => exact ⟨forall_mem_snoc all.1 (cut _ here), all.2⟩
  | global _ _ ok =>
    obtain ⟨-, -, rfl⟩ := Module.addGlobal_eq_ok.mp ok
    exact all
  | declaration _ _ ok =>
    obtain ⟨-, -, rfl⟩ := Module.addFunction_eq_ok.mp ok
    exact all
  | definition _ _ ok =>
    obtain ⟨-, -, rfl⟩ := Module.addFunction_eq_ok.mp ok
    exact all
  | _ => exact all

private theorem nodesAll_read {p : String → Prop} (cut : ∀ text, NodeCut src text → p text)
    {name : String} {ts rest : List Lexeme} {u : Unit} (lexed : lex src = .ok ts)
    (read : Reads (readEntities src) ts ({ module := { name } } : Draft) u rest d) : NodesAll p d := by
  have source : Source src ts := ⟨[], lexFrom_eq_ok.mp lexed⟩
  refine ((reads_whileNext.mp read).preserves (P := fun _ left d => Source src left ∧ NodesAll p d) ?_
    ⟨source, nofun, nofun⟩).2
  rintro _ t left now first next between after picked ⟨source, all⟩ round
  obtain rfl := Option.some.inj picked
  exact ⟨source.suffix (round.suffix.trans (List.suffix_cons _ _)),
    (entity_read source round).nodesAll cut all⟩

/-- What is read of an unbroken text can be entered again when it is written, whatever becomes of the
bodies. -/
theorem enterable_read {name text : String} (flat : Flat name) (unbroken : Unbroken text.toList)
    (ok : parse name text = .ok m) : Enterable m := by
  obtain ⟨built, rfl, kept, known⟩ := parse_read ok
  obtain ⟨ts, rest, d, lexed, read, same⟩ := parse_draft ok
  obtain ⟨named, nodes⟩ := nodesAll_read (fun _ cut => cut.kept unbroken) lexed read
  have namedSame : m.namedMetadata = d.module.namedMetadata := congrArg Carried.namedMetadata same
  have nodesSame : m.metadata = d.module.metadata := congrArg Carried.metadata same
  exact kept.enterable flat built known (fun node mem => named node (namedSame ▸ mem)) fun node mem =>
    nodes node (nodesSame ▸ mem)

private theorem carried_partlyRead (known : ∀ f ∈ m.functions, f.FromText m) (name : String) :
    ({ partlyRead m [] m.functions with name } : Module).carried = m.carried := by
  have attrs : (m.functions.map (·.opened m)).map (·.attrs) = m.functions.map (·.attrs) := by
    rw [List.map_map]
    exact List.map_congr_left fun f mem => (known f mem).rereadAttrs
  have globals : (m.globals.map (·.reread)).map (fun g => (g.qualifiers, g.attachments)) =
      m.globals.map fun g => (g.qualifiers, g.attachments) := by
    rw [List.map_map]
    rfl
  simp only [Module.carried, partlyRead, List.map_nil, List.nil_append, attrs, Module.reread, globals]

end

/-- A module that is read from an unbroken text, under a name without a line break, has a text. If this
is read, under any name, then everything that is carried along is the same again. -/
theorem parse_carried {name text : String} {m : Module} (flat : Flat name)
    (unbroken : Unbroken text.toList) (ok : parse name text = .ok m) :
    ∃ written, moduleText m = some written ∧
      ∀ again m', parse again written = .ok m' → m'.carried = m.carried := by
  have enterable := enterable_read flat unbroken ok
  obtain ⟨-, -, -, known⟩ := parse_read ok
  refine ⟨writtenModule m, enterable.moduleText, fun again m' ok' => ?_⟩
  obtain ⟨ts, d, lexed, read, module, -⟩ := entities_written enterable again
  obtain ⟨ts', rest, d', lexed', read', same⟩ := parse_draft ok'
  obtain rfl := Except.ok.inj (lexed.symm.trans lexed')
  obtain ⟨-, -, rfl⟩ := read.unique read'
  rw [same, module]
  exact carried_partlyRead known again

/-- Attributes, and a node with a comment behind it. -/
def carrying : String :=
  "declare cold void @f() #0
!0 = !\x7b\x7d ; kept
"

def carryingRead : Module where
  name := "m"
  functions := [{ name := "f", ret := .void, attrs := { lead := "cold", trail := "#0" } }]
  metadata := [(0, "!\x7b\x7d ; kept")]

private theorem unbroken_carrying : Unbroken carrying.toList := by
  have chars : carrying.toList = _ := String.toList_ofList
  have all : (lex carrying.toList).map (·.all (decide ·.token.Unbroken)) = .ok true := by
    rw [chars]
    decide +kernel
  intro ts lexed t mem
  rw [lexed] at all
  simpa using List.all_eq_true.mp (Except.ok.inj all) t mem

theorem parse_carried_attributes : Flat "m" ∧ Unbroken carrying.toList ∧
    parse "m" carrying = .ok carryingRead ∧ ∃ written, moduleText carryingRead = some written ∧
      ∀ again m', parse again written = .ok m' → m'.carried = carryingRead.carried := by
  have read : parse "m" carrying = .ok carryingRead := by
    refine (parse_ofList "m" _).trans ?_
    decide +kernel
  have kept := parse_carried (by decide) unbroken_carrying read
  exact ⟨by decide, unbroken_carrying, read, kept⟩

/-- A name with a line break. -/
def brokenName : String := "m\n!0 = !\x7b\x7d ;"

/-- The line break ends the comment that holds the name: what follows it is read as a node, which the
module did not have. -/
theorem brokenName_carried : Unbroken "".toList ∧ parse brokenName "" = .ok { name := brokenName } ∧
    ¬ ∀ written m', moduleText { name := brokenName } = some written →
      parse brokenName written = .ok m' → m'.carried = Module.carried { name := brokenName } := by
  refine ⟨fun ts lexed => ?_, by rw [parse_eq]; decide +kernel, fun same => ?_⟩
  · obtain rfl := Except.ok.inj (lexed.symm.trans (show lex [] = .ok [] by decide +kernel))
    exact fun t mem => absurd mem List.not_mem_nil
  · have read : parse brokenName "; ModuleID = 'm\n!0 = !\x7b\x7d ;'\n" = .ok
        { name := brokenName, metadata := [(0, "!\x7b\x7d ;'")] } := by
      refine (parse_ofList brokenName _).trans ?_
      decide +kernel
    exact absurd (same _ _ (by decide) read) (by decide)

end Listing
end BlockTally
