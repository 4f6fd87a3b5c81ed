import Mathlib.Data.List.Chain
import BlockTally.Proofs.Listing.Carried
import BlockTally.Proofs.Listing.Nodes

/-! The end of a listing. The nodes stand behind the last empty line, so they are the same lines in two
listings of the same text. Main statement: `lexable_of_reread`. -/
namespace BlockTally.Listing
open Text Read

/-! Where the lines begin. -/

section
variable {m : Module}

/-- What is written before the nodes. -/
def openingText (m : Module) : String :=
  frontText m ++ .join (m.functions.map (writtenFunction m)) ++ sectionText m.attributeGroups

def EndsLine (text : String) : Prop := ∃ front, text = front ++ "\n"

/-- The text of whole lines. -/
def Closed (text : String) : Prop := text = "" ∨ EndsLine text

theorem EndsLine.append {a b : String} (first : EndsLine a) (second : Closed b) : EndsLine (a ++ b) := by
  rcases second with rfl | ⟨front, rfl⟩
  · rwa [String.append_empty]
  · exact ⟨a ++ front, String.append_assoc.symm⟩

theorem Closed.append {a b : String} (first : Closed a) (second : Closed b) : Closed (a ++ b) := by
  rcases first with rfl | first
  · rwa [String.empty_append]
  · exact .inr (first.append second)

private theorem closed_join {texts : List String} (each : ∀ text ∈ texts, Closed text) :
    Closed (.join texts) := by
  induction texts with
  | nil => exact .inl rfl
  | cons text texts ih =>
    obtain ⟨first, others⟩ := List.forall_mem_cons.mp each
    rw [String.join_cons]
    exact first.append (ih others)

private theorem closed_section (lines : List String) : Closed (sectionText lines) := by
  unfold sectionText
  split
  · exact .inl rfl
  · refine Closed.append (.inr ⟨"", rfl⟩) (closed_join fun text mem => ?_)
    obtain ⟨line, -, rfl⟩ := List.mem_map.mp mem
    exact .inr ⟨line, rfl⟩

private theorem closed_property (name : String) (value : Option String) :
    Closed (propertyText name value) := by
  cases value with
  | none => exact .inl rfl
  | some text => exact .inr ⟨name ++ " = \"" ++ text ++ "\"", by simp [propertyText, String.append_assoc]⟩

private theorem closed_function {f : Function} {text : String}
    (written : functionText m f = some text) :
    Closed text := by
  unfold functionText at written
  split at written
  · obtain ⟨head, -, same⟩ := Option.bind_eq_some_iff.mp written
    exact .inr ⟨_, (Option.some.inj same).symm⟩
  · obtain ⟨entry, -, more⟩ := Option.bind_eq_some_iff.mp written
    obtain ⟨blocks, -, more⟩ := Option.bind_eq_some_iff.mp more
    obtain ⟨head, -, same⟩ := Option.bind_eq_some_iff.mp more
    have brace : "\x7d\n" = "\x7d" ++ "\n" := rfl
    rw [brace, ← String.append_assoc] at same
    exact .inr ⟨_, (Option.some.inj same).symm⟩

private theorem openingText_ends (texts : ∀ f ∈ m.functions, (functionText m f).isSome) :
    EndsLine (openingText m) := by
  have heading : EndsLine ("; ModuleID = '" ++ m.name ++ "'\n") := by
    have quote : "'\n" = "'" ++ "\n" := by decide
    rw [quote, ← String.append_assoc]
    exact ⟨_, rfl⟩
  have front : EndsLine (frontText m) :=
    ((((heading.append (closed_property _ _)).append (closed_property _ _)).append
      (closed_property _ _)).append (closed_section _)).append (closed_section _)
  have functions : Closed (.join (m.functions.map (writtenFunction m))) := by
    refine closed_join fun text mem => ?_
    obtain ⟨f, among, rfl⟩ := List.mem_map.mp mem
    obtain ⟨text, written⟩ := Option.isSome_iff_exists.mp (texts f among)
    rw [writtenFunction, written]
    exact Closed.append (.inr ⟨"", rfl⟩) (closed_function written)
  exact (front.append functions).append (closed_section _)

private theorem section_nodes {ns : List Node} (some : ns ≠ []) :
    (sectionText (ns.map Node.text)).toList = '\n' :: nodeLines ns := by
  have lines : (String.join ((ns.map Node.text).map (· ++ "\n"))).toList = nodeLines ns := by
    simp [nodeLines, String.toList_join, List.flatMap_map]
  rw [sectionText, if_neg (by simpa using some), String.toList_append, lines]
  rfl

theorem Node.Known.flat {n : Node} (known : n.Known) : ∀ c ∈ n.text.toList, c ≠ '\n' := by
  have sign : ∀ c ∈ n.sign.toList, c ≠ '\n' := known.spelled.shape.flat (by cases n <;> trivial)
  rw [n.text_eq]
  exact ((Flat.append sign (by decide)).append known.1.flat)

/-- No empty line stands among the nodes. -/
theorem nodeLines_apart {ns : List Node} (known : ∀ n ∈ ns, n.Known) :
    ('\n' :: nodeLines ns).IsChain fun c d => ¬ (c = '\n' ∧ d = '\n') := by
  induction ns with
  | nil => exact .singleton _
  | cons n ns ih =>
    obtain ⟨here, others⟩ := List.forall_mem_cons.mp known
    have split : '\n' :: nodeLines (n :: ns) = ('\n' :: n.text.toList) ++ '\n' :: nodeLines ns := by
      simp [nodeLines]
    rw [split, List.isChain_split]
    refine ⟨?_, ih others⟩
    have flat := here.flat
    have pairs : n.text.toList.Pairwise fun c d => ¬ (c = '\n' ∧ d = '\n') :=
      List.pairwise_of_forall_mem_list fun c mem d _ same => flat c mem same.1
    have some : n.text.toList ≠ [] := by simp [n.text_eq]
    refine List.isChain_append.mpr ⟨List.isChain_cons.mpr ⟨?_, pairs.isChain⟩, .singleton _, ?_⟩
    · exact fun c first same => flat c (List.mem_of_mem_head? first) same.2
    · intro c last _ _ same
      rw [List.getLast?_cons_of_ne_nil some] at last
      exact flat c (List.mem_of_mem_getLast? last) same.1

/-- The nodes stand behind the last empty line. -/
theorem nodeLines_le {a b : List Char} {ns ns' : List Node} (known : ∀ n ∈ ns, n.Known)
    (same : a ++ '\n' :: nodeLines ns = b ++ '\n' :: '\n' :: nodeLines ns') :
    solid (nodeLines ns) ≤ solid (nodeLines ns') := by
  have line : solid ['\n'] = 0 := by decide
  have first : '\n' :: nodeLines ns <:+ a ++ '\n' :: nodeLines ns := List.suffix_append _ _
  have second : '\n' :: '\n' :: nodeLines ns' <:+ a ++ '\n' :: nodeLines ns := ⟨b, same.symm⟩
  rcases List.suffix_or_suffix_of_suffix first second with inside | beyond
  · obtain ⟨more, whole⟩ := inside
    have count := congrArg solid whole
    have breaks : '\n' :: '\n' :: nodeLines ns' = ['\n'] ++ (['\n'] ++ nodeLines ns') := rfl
    rw [breaks, ← List.singleton_append] at count
    simp only [solid_append, line] at count
    omega
  · have apart := (nodeLines_apart known).suffix beyond
    exact absurd ⟨rfl, rfl⟩ (List.isChain_cons_cons.mp apart).1

end

/-! What is read again. -/

section
variable {m : Module}

/-- The module without its nodes. -/
def withoutNodes (m : Module) : Module := { m with namedMetadata := [], metadata := [] }

private theorem enterable_withoutNodes (kept : m.TextKept) (flat : Flat m.name) (built : m.Built)
    (known : ∀ f ∈ m.functions, f.FromText m) : Enterable (withoutNodes m) where
  name := flat
  sourceFilename := kept.sourceFilename
  datalayout := kept.datalayout
  triple := kept.triple
  distinct := built.coherent.distinct
  ordered := .nil
  comdats := kept.comdats
  globals := kept.globals
  functions := fun f mem => ⟨(known f mem).header, (known f mem).trail, (known f mem).unquoted,
    fun _ among =>
      have inst := (known f mem).instructionKnown (fun g here => (kept.globals g here).name)
        (fun g here => (known g here).name) among
      ⟨⟨inst.operands, inst.targets⟩, inst.result⟩⟩
  groups := kept.groups
  named := nofun
  nodes := nofun

private theorem writtenModule_withoutNodes (m : Module) :
    writtenModule (withoutNodes m) = openingText m := by
  have functions : (withoutNodes m).functions.map (writtenFunction (withoutNodes m)) =
      m.functions.map (writtenFunction m) := rfl
  have section' : sectionText ((nodes (withoutNodes m)).map Node.text) = "" := rfl
  have front : frontText (withoutNodes m) = frontText m := rfl
  rw [writtenModule, functions, section', front, String.append_empty]
  rfl

private theorem nodes_known (kept : m.TextKept) : ∀ n ∈ nodes m, n.Known := by
  intro n mem
  rcases List.mem_append.mp mem with named | numbered
  · obtain ⟨e, here, rfl⟩ := List.mem_map.mp named
    exact (kept.named e here).symm
  · obtain ⟨e, here, rfl⟩ := List.mem_map.mp numbered
    exact ⟨kept.nodes e here, trivial⟩

private theorem weight_none (none : nodes m = []) : weight m = 0 := by rw [weight, none]; rfl

/-- What is left when the entities before the nodes are read. -/
theorem opening_read {src : List Char} {ts rest : List Lexeme} {d : Draft} {u : Unit} {name : String}
    (ok : Enterable (withoutNodes m)) (some : nodes m ≠ []) (known : ∀ n ∈ nodes m, n.Known)
    (whole : src = (openingText m ++ sectionText ((nodes m).map Node.text)).toList)
    (lexed : Lexed 0 src ts) (read : Reads (readEntities src) ts { module := { name } } u rest d) :
    ∃ left now, left <:+ ts ∧ Remains src (nodeLines (nodes m)) left ∧ nodes now.module = [] ∧
      Reads (readEntities src) left now u rest d := by
  have yields := yields_module src ok name
  rw [writtenModule_withoutNodes] at yields
  obtain ⟨us, lexes, -, goes⟩ := yields
  rw [String.toList_append, section_nodes some] at whole
  have opening : Lexed 0 (openingText m).toList us := by
    have alone := lexes 0 [] [] trivial .nil
    simpa [Lexeme.shift_zero] using alone
  have breaks : ∀ c ∈ ('\n' :: nodeLines (nodes m)).head?, c = '\n' := by
    rintro _ ⟨⟩
    rfl
  rw [whole] at lexed
  obtain ⟨vs, rfl, behind⟩ := opening.split_line breaks lexed
  have lines := behind.of_gap (by decide)
  have next : NextEntity (vs.map (·.token)) := by
    obtain ⟨n, ns, list⟩ := List.exists_cons_of_ne_nil some
    rw [list] at known lines
    rw [nodeLines_cons] at lines
    obtain ⟨ws, rfl, -⟩ := (known n List.mem_cons_self).spelled.lexed_inv (ends_cons (by decide)) lines
    rintro _ ⟨⟩
    cases n <;> rfl
  have place : At src 0 (openingText m).toList :=
    ⟨[], '\n' :: nodeLines (nodes m), by rw [whole, List.nil_append], byteLength_nil⟩
  obtain ⟨now, gone, drafted, -⟩ := goes 0 vs { module := { name } } place
    (fun t mem => (behind.start_le t mem).1) next ⟨rfl, rfl⟩
  have unshifted : us.map (·.shift 0) = us := by simp [Lexeme.shift_zero]
  rw [unshifted] at gone
  refine ⟨vs, now, List.suffix_append us vs, ⟨(openingText m).toList ++ ['\n'], by simp [whole], ?_⟩, ?_,
    gone.behind read⟩
  · simpa using lines
  · rw [drafted]
    rfl

private theorem texts_written (kept : m.TextKept) (known : ∀ f ∈ m.functions, f.FromText m) :
    ∀ f ∈ m.functions, (functionText m f).isSome := fun f mem =>
  (known f mem).printed (fun g among => (kept.globals g among).name) fun g among => (known g among).name

private theorem written_split (kept : m.TextKept) (known : ∀ f ∈ m.functions, f.FromText m)
    {text : String} (written : moduleText m = some text) :
    text = openingText m ++ sectionText ((nodes m).map Node.text) :=
  Option.some.inj (written.symm.trans (moduleText_eq (texts_written kept known)))

/-- If what is written of a module is read as a module with the same text, then its nodes consist of
whole tokens. -/
theorem lexable_of_reread {again : Module} {name text : String} (kept : m.TextKept)
    (flat : Flat m.name) (built : m.Built) (known : ∀ f ∈ m.functions, f.FromText m)
    (written : moduleText m = some text) (read : parse name text = .ok again)
    (same : moduleText again = some text) : ∀ n ∈ nodes m, Lexable n.body := by
  by_cases some : nodes m = []
  · rw [some]
    exact nofun
  have ok := enterable_withoutNodes kept flat built known
  have nodesKnown := nodes_known kept
  have whole := written_split kept known written
  obtain ⟨ts, rest, d, lexed, entities, carried⟩ := parse_draft read
  obtain ⟨-, -, kept', known'⟩ := parse_read read
  have lexed := lexFrom_eq_ok.mp lexed
  obtain ⟨left, now, suffix, remains, none, more⟩ :=
    opening_read ok some nodesKnown (congrArg String.toList whole) lexed entities
  have source : Source text.toList left := Source.suffix ⟨[], lexed⟩ suffix
  rcases lines_lexable nodesKnown source remains more with all | less
  · exact all
  -- There is more on the lines than in the nodes of the module that is read. But these are written
  -- on the same lines.
  have sameNodes : SameNodes d.module again :=
    ⟨congrArg Carried.namedMetadata carried, congrArg Carried.metadata carried⟩
  have some' : nodes again ≠ [] := by
    obtain ⟨n, ns, list⟩ := List.exists_cons_of_ne_nil some
    rw [list] at remains
    obtain ⟨between, -, -, -, -, behind, entered, -⟩ :=
      line_read (nodesKnown n (by simp [list])) remains more
    rw [sameNodes.nodes]
    exact entities_nodes (source.suffix behind) (nodes_addTo n now.module) entered
  have whole' := written_split kept' known' same
  obtain ⟨front, ends⟩ := openingText_ends (texts_written kept' known')
  have lines := congrArg String.toList (whole.symm.trans whole')
  rw [ends, String.toList_append, String.toList_append, String.toList_append, section_nodes some,
    section_nodes some', List.append_assoc] at lines
  have bound := nodeLines_le nodesKnown lines
  rw [solid_nodeLines, solid_nodeLines] at bound
  rw [weight_none none, Nat.zero_add, ← sameNodes.weight] at less
  exact absurd less (Nat.not_lt.mpr bound)

end

end BlockTally.Listing
