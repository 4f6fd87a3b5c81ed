import BlockTally.Proofs.Code.Registry
import BlockTally.Proofs.Listing.Entities

/-! Entities that keep their text: properties of the module, comdats, attribute groups and metadata.
Main statements: `yields_property`, `yields_keptLine`, `yields_node`. -/
namespace BlockTally.Listing
open Text Read

/-- The draft holds this module, and of the bodies that are left for later `B` holds. -/
def Drafted (M : Module) (B : List (FuncId × List Lexeme) → Prop) (d : Draft) : Prop :=
  d.module = M ∧ B d.bodies

section
variable {src : List Char} {M : Module} {B : List (FuncId × List Lexeme) → Prop}

private theorem reads_alter {f : Module → Module} {ts : List Lexeme} {d : Draft} :
    Reads (alter f) ts d () ts { d with module := f d.module } :=
  reads_update.mpr ⟨rfl, rfl⟩

theorem reads_enter {α : Type} {start : Nat} {edit : Edit Module EditError α} {a : α}
    {ts : List Lexeme} {d : Draft} {m : Module} (ok : edit d.module = (.ok a, m)) :
    Reads (enter start edit) ts d a ts { d with module := m } := by
  simp only [enter, reads_bind, reads_state]
  refine ⟨d, ts, d, ⟨rfl, rfl, rfl⟩, ?_⟩
  rw [ok]
  simp only [reads_bind, reads_pure]
  exact ⟨(), ts, _, reads_update.mpr ⟨rfl, rfl⟩, trivial, rfl, rfl⟩

theorem spelled_first {word : String} (known : isWord word.toList = true) :
    Lexes Ends word.toList [⟨.word word, 0, byteLength word.toList⟩] := (spelling_word known).lexes

private theorem readQuoted_takes {text : String} {σ : Type} {P : σ → Prop}
    {stop : List Token → Prop} :
    Takes (readQuoted : Read σ String) [.quoted text] stop P text P := takes_demand rfl

/-! Properties. -/

private theorem describes_property {text : String} (unquoted : Unquoted text) :
    Describes src Anywhere (" = " ++ ("\"" ++ text ++ "\"") ++ "\n")
      (Of ([.punct .equals] ++ [.quoted text])) := by
  have equals := (spells_space.next (spells_punct (by decide) (c := '=') rfl)).next spells_space
  have line := (equals.next (spells_quoted unquoted)).closed spells_break (by decide)
    (ends_cons (by decide))
  rw [List.append_nil] at line
  exact line.describes

private theorem ends_property (text : String) (post : List Char) :
    Ends ((" = " ++ ("\"" ++ text ++ "\"") ++ "\n").toList ++ post) := by
  rw [String.toList_append, String.toList_append, List.append_assoc, List.append_assoc]
  exact ends_cons (by decide)

theorem yields_filename {value : Option String} (unquoted : ∀ text ∈ value, Unquoted text)
    (unset : M.sourceFilename = none) :
    Yields src (propertyText "source_filename" value) (Drafted M B)
      (Drafted { M with sourceFilename := value } B) := by
  cases value with
  | none =>
    have same : { M with sourceFilename := none } = M := by rw [← unset]
    rw [same]
    exact yields_gap spells_empty
  | some text =>
    have written : propertyText "source_filename" (some text) =
        "source_filename" ++ (" = " ++ ("\"" ++ text ++ "\"") ++ "\n") := by
      simp [propertyText, ← String.toList_inj]
    rw [written]
    refine yields_described (spelled_first (by decide)) (ends_property text) (by decide)
      (describes_property (unquoted text rfl)) ?_
    rintro o ts rest d - tokens - - ⟨module, bodies⟩
    have takes : Takes (do
        expect (.punct .equals)
        let text ← readQuoted
        alter fun m => { m with sourceFilename := some text }) ([.punct .equals] ++ ([.quoted text] ++ []))
        Anything (Drafted M B) () (Drafted { M with sourceFilename := some text } B) := by
      refine takes_expect.next (readQuoted_takes.next ?_)
      intro ts rest d none _ ⟨module, bodies⟩
      obtain rfl := List.map_eq_nil_iff.mp none
      exact ⟨_, reads_alter, by rw [module], bodies⟩
    exact takes ts rest d tokens trivial ⟨module, bodies⟩

/-- What the reader does with a property of the target. -/
def setTarget (property text : String) (start : Option Nat) : Read Draft Unit :=
  match property with
  | "datalayout" => alter fun m => { m with datalayout := some text }
  | "triple" => alter fun m => { m with triple := some text }
  | _ => refuseAt start (.unknownTarget property)

theorem readTarget_eq : readTarget = (do
    let start ← place
    let property ← word (.either "datalayout" "triple")
    expect (.punct .equals)
    let text ← readQuoted
    setTarget property text start) := rfl

/-- A property of the target, which the reader enters with `set`. -/
theorem yields_target (property : String) {text : String} (set : Module → Module)
    (known : isWord property.toList = true) (unquoted : Unquoted text)
    (sets : ∀ start, setTarget property text start = alter set) :
    Yields src ("target" ++ (" " ++ property ++ (" = " ++ ("\"" ++ text ++ "\"") ++ "\n")))
      (Drafted M B) (Drafted (set M) B) := by
  have name : Describes src Ends (" " ++ property) (Of [.word property]) :=
    (spells_word known).describes.leading spells_space
  refine yields_described (spelled_first (by decide)) ?_ (by decide)
    (name.append (describes_property unquoted) fun post _ => ends_property text post) ?_
  · intro post
    rw [String.toList_append, String.toList_append, List.append_assoc, List.append_assoc]
    exact ends_cons (by decide)
  · rintro o _ rest d - ⟨front, back, rfl, word, tokens⟩ - - ⟨module, bodies⟩
    obtain ⟨t, rfl, token⟩ := List.map_eq_singleton_iff.mp word
    have takes : ∀ start : Option Nat, Takes (do
        expect (.punct .equals)
        let text ← readQuoted
        setTarget property text start) ([.punct .equals] ++ ([.quoted text] ++ []))
        Anything (Drafted M B) () (Drafted (set M) B) := by
      intro start
      refine takes_expect.next (readQuoted_takes.next ?_)
      rw [sets start]
      intro ts rest d none _ ⟨module, bodies⟩
      obtain rfl := List.map_eq_nil_iff.mp none
      exact ⟨_, reads_alter, by rw [module], bodies⟩
    obtain ⟨d', read, known⟩ := takes (some t.start) back rest d tokens trivial ⟨module, bodies⟩
    refine ⟨d', ?_, known⟩
    change Reads readTarget _ _ _ _ _
    rw [readTarget_eq]
    simp only [reads_bind, reads_place, reads_word] at read ⊢
    exact ⟨_, _, _, ⟨rfl, rfl, rfl⟩, property, _, _, ⟨t, rfl, token, rfl⟩, read⟩

theorem yields_datalayout {value : Option String} (unquoted : ∀ text ∈ value, Unquoted text)
    (unset : M.datalayout = none) :
    Yields src (propertyText "target datalayout" value) (Drafted M B)
      (Drafted { M with datalayout := value } B) := by
  cases value with
  | none =>
    have same : { M with datalayout := none } = M := by rw [← unset]
    rw [same]
    exact yields_gap spells_empty
  | some text =>
    have written : propertyText "target datalayout" (some text) =
        "target" ++ (" " ++ "datalayout" ++ (" = " ++ ("\"" ++ text ++ "\"") ++ "\n")) := by
      simp [propertyText, ← String.toList_inj]
    rw [written]
    exact yields_target "datalayout" (fun m => { m with datalayout := some text }) (by decide)
      (unquoted text rfl) fun _ => rfl

theorem yields_triple {value : Option String} (unquoted : ∀ text ∈ value, Unquoted text)
    (unset : M.triple = none) :
    Yields src (propertyText "target triple" value) (Drafted M B)
      (Drafted { M with triple := value } B) := by
  cases value with
  | none =>
    have same : { M with triple := none } = M := by rw [← unset]
    rw [same]
    exact yields_gap spells_empty
  | some text =>
    have written : propertyText "target triple" (some text) =
        "target" ++ (" " ++ "triple" ++ (" = " ++ ("\"" ++ text ++ "\"") ++ "\n")) := by
      simp [propertyText, ← String.toList_inj]
    rw [written]
    exact yields_target "triple" (fun m => { m with triple := some text }) (by decide)
      (unquoted text rfl) fun _ => rfl

/-! Lines that are kept as they stand. -/

private theorem reads_restOfLine {σ : Type} {offset stop : Nat} {ts rest : List Lexeme} {s : σ}
    (line : lineEnd? src offset = some stop) (inside : ∀ t ∈ ts, t.start < stop)
    (outside : ∀ t ∈ rest, stop ≤ t.start) :
    Reads (restOfLine src offset) (ts ++ rest) s ts rest s := by
  refine reads_bind.mpr ⟨stop, _, _, reads_present.mpr ⟨line, rfl, rfl⟩, ?_⟩
  rw [reads_taken, reads_skipWhile]
  refine ⟨⟨?_, rfl⟩, rfl⟩
  rw [List.dropWhile_append_of_pos (by simpa using inside)]
  cases rest with
  | nil => rfl
  | cons t rest =>
    have out := outside t List.mem_cons_self
    rw [List.dropWhile_cons_of_neg (by simpa using out)]

theorem reads_lineText {σ : Type} {offset stop : Nat} {ts rest : List Lexeme} {text : String} {s : σ}
    (line : lineEnd? src offset = some stop) (inside : ∀ t ∈ ts, t.start < stop)
    (outside : ∀ t ∈ rest, stop ≤ t.start) (span : span? src ts = some text) :
    Reads (lineText src offset) (ts ++ rest) s text rest s :=
  reads_bind.mpr ⟨ts, rest, s, reads_restOfLine line inside outside,
    reads_readSpan.mpr ⟨span, rfl, rfl⟩⟩

/-- A text that stands on its line, and the tokens that it begins with. -/
def KeptLine (first : Token) (text : String) : Prop :=
  ∃ t more, Raw text (t :: more) ∧ t.token = first ∧
    ∀ u ∈ t :: more, u.start < firstLine text.toList

theorem yields_keptLine {first : Token} {text : String} (add : String → Module → Module)
    (kept : KeptLine first text) (starts : startsEntity first = true)
    (reads : ∀ t : Lexeme, t.token = first → readEntity src t = (do
      let line ← restOfLine src t.start
      let text ← readSpan src (t :: line)
      alter (add text))) :
    Yields src (text ++ "\n") (Drafted M B) (Drafted (add text M) B) := by
  obtain ⟨t, more, raw, token, onLine⟩ := kept
  have lexes : Lexes Anywhere (text ++ "\n").toList (t :: more) := by
    have newline : Lexes Anywhere ['\n'] [] := lexes_gap (by decide)
    have line := raw.lexes.append newline fun post _ => ends_cons (by decide)
    rw [String.toList_append]
    simpa using line
  refine yields_entity lexes (token ▸ starts) fun o rest d place behind _ ⟨module, bodies⟩ => ?_
  rw [String.toList_append] at place behind
  have start : t.start = 0 := raw.starts t rfl
  have line : lineEnd? src (t.shift o).start = some (o + firstLine text.toList) := by
    rw [Lexeme.shift, start]
    exact place.lineEnd?
  have inside : ∀ u ∈ more.map (·.shift o), u.start < o + firstLine text.toList := by
    intro u mem
    obtain ⟨v, here, rfl⟩ := List.mem_map.mp mem
    have := onLine v (List.mem_cons_of_mem _ here)
    exact Nat.add_lt_add_left this o
  have outside : ∀ u ∈ rest, o + firstLine text.toList ≤ u.start := by
    intro u mem
    have := behind u mem
    have := firstLine_le text.toList
    rw [byteLength_append] at *
    omega
  have span : span? src (t.shift o :: more.map (·.shift o)) = some text := raw.span? place.left
  refine ⟨{ d with module := add text d.module }, ?_, by rw [module], bodies⟩
  rw [reads (t.shift o) token]
  simp only [reads_bind, reads_readSpan]
  exact ⟨_, _, _, reads_restOfLine line inside outside, _, _, _, ⟨span, rfl, rfl⟩, reads_alter⟩

theorem yields_comdat {text : String} (kept : KeptLine .comdatRef text) :
    Yields src (text ++ "\n") (Drafted M B) (Drafted (M.addComdat text) B) :=
  yields_keptLine (fun text m => m.addComdat text) kept rfl fun t token => by
    rw [readEntity, token]

theorem yields_attributeGroup {text : String} (kept : KeptLine (.word "attributes") text) :
    Yields src (text ++ "\n") (Drafted M B) (Drafted (M.addAttributeGroup text) B) :=
  yields_keptLine (fun text m => m.addAttributeGroup text) kept (by decide) fun t token => by
    rw [readEntity, token]
    rfl

/-! Metadata. -/

/-- A text on one line, without blanks at its ends, that lexes by itself. -/
structure KeptNode (text : String) : Prop where
  flat : ∀ c ∈ text.toList, c ≠ '\n'
  trim : trimmed text = text
  lexed : ∃ ts, Lexed 0 text.toList ts

theorem trimmed_space (text : String) (trim : trimmed text = text) : trimmed (" " ++ text) = text := by
  have blank : isBlank ' ' = true := by decide
  have same : trimmed (" " ++ text) = trimmed text := by
    unfold trimmed
    rw [String.toList_append]
    have space : " ".toList = [' '] := rfl
    rw [space, List.singleton_append, List.dropWhile_cons_of_pos blank]
  rw [same, trim]

theorem KeptNode.lexes {text : String} {ts : List Lexeme} (lexed : Lexed 0 text.toList ts) :
    Lexes Anywhere (text ++ "\n").toList ts := by
  intro o post us _ lexed'
  rw [String.toList_append, List.append_assoc]
  have here := lexed.shift o
  rw [Nat.add_zero] at here
  refine here.append_line (by rintro _ ⟨⟩; rfl) (.gap (by decide) ?_)
  rw [String.toList_append, byteLength_append, ← Nat.add_assoc] at lexed'
  exact lexed'

private theorem lexes_equals : Lexes Anywhere " = ".toList [⟨.punct .equals, 1, 2⟩] := by
  have sign : Lexes Anywhere ['='] [⟨.punct .equals, 0, 1⟩] := lexes_punct (by decide) rfl
  have blank : Lexes Anywhere [' '] [] := lexes_gap (by decide)
  exact (blank.append sign fun _ _ => trivial).append blank fun _ _ => trivial

/-- What a node says is read up to the end of its line. -/
theorem reads_node {σ : Type} {text : String} (kept : KeptNode text) {ts : List Lexeme}
    (lexed : Lexed 0 text.toList ts) {p : Nat} (place : At src p (" " ++ text ++ "\n").toList)
    {sign : Lexeme} (equals : sign.token = .punct .equals) (stop : sign.stop = p)
    {rest : List Lexeme} (behind : ∀ t ∈ rest, p + byteLength (" " ++ text ++ "\n").toList ≤ t.start)
    (first : Lexeme) (s : σ) :
    Reads (readNode src first) (sign :: ts.map (·.shift (p + 1)) ++ rest) s text rest s := by
  rw [String.toList_append] at place behind
  have flat : ∀ c ∈ (" " ++ text).toList, c ≠ '\n' := by
    intro c mem
    rw [String.toList_append] at mem
    rcases List.mem_append.mp mem with blank | inside
    · rw [List.mem_singleton.mp blank]
      decide
    · exact kept.flat c inside
  have size : byteLength (" " ++ text).toList = 1 + byteLength text.toList := by
    rw [String.toList_append, byteLength_append]
    rfl
  have line : lineEnd? src sign.stop = some (p + byteLength (" " ++ text).toList) := by
    rw [stop, ← firstLine_flat flat]
    exact place.lineEnd?
  have inside : ∀ t ∈ ts.map (·.shift (p + 1)), t.start < p + byteLength (" " ++ text).toList := by
    intro t mem
    obtain ⟨u, here, rfl⟩ := List.mem_map.mp mem
    have bounds := lexed.start_le u here
    rw [size]
    change p + 1 + u.start < _
    omega
  have outside : ∀ t ∈ rest, p + byteLength (" " ++ text).toList ≤ t.start := by
    intro t mem
    have := behind t mem
    rw [byteLength_append] at this
    omega
  have whole : Text.slice? src sign.stop (p + byteLength (" " ++ text).toList) =
      some (" " ++ text) := by
    rw [stop, place.left.slice?, String.ofList_toList]
  unfold readNode
  simp only [reads_bind, reads_taken, reads_expect, reads_present, reads_pure]
  refine ⟨[sign], _, s, ⟨⟨sign, rfl, equals, rfl⟩, rfl⟩, sign, _, _, ⟨rfl, rfl, rfl⟩, _, _, _,
    ⟨line, rfl, rfl⟩, _, _, _, reads_restOfLine line inside outside, _, _, _, ⟨whole, rfl, rfl⟩, ?_⟩
  exact ⟨(trimmed_space text kept.trim).symm, rfl, rfl⟩

/-- A node with the sign that names it. -/
theorem yields_node {sign text : String} (token : Token) (add : String → Module → Module)
    (spelled : Spelling sign.toList token) (starts : startsEntity token = true) (kept : KeptNode text)
    (reads : ∀ t : Lexeme, t.token = token → readEntity src t = (do
      let text ← readNode src t
      alter (add text))) :
    Yields src (sign ++ " = " ++ text ++ "\n") (Drafted M B) (Drafted (add text M) B) := by
  obtain ⟨ts, lexed⟩ := kept.lexed
  have both := spelled.lexes.append (lexes_equals.append (KeptNode.lexes lexed) fun _ _ => trivial)
    fun post (_ : Anywhere post) => ends_cons (by decide)
  have text_eq : sign ++ " = " ++ text ++ "\n" = sign ++ (" = " ++ (text ++ "\n")) := by
    simp only [String.append_assoc]
  have whole : Lexes Anywhere (sign ++ " = " ++ text ++ "\n").toList
      (⟨token, 0, byteLength sign.toList⟩ ::
        (⟨.punct .equals, 1, 2⟩ :: ts.map (·.shift 3)).map (·.shift (byteLength sign.toList))) := by
    rw [text_eq, String.toList_append, String.toList_append]
    exact both
  refine yields_entity whole starts fun o rest d place behind _ ⟨module, bodies⟩ => ?_
  have split : sign ++ " = " ++ text ++ "\n" = (sign ++ " =") ++ (" " ++ text ++ "\n") := by
    have equals : " = " = " =" ++ " " := by decide
    rw [equals]
    simp only [String.append_assoc]
  have front : byteLength (sign ++ " =").toList = byteLength sign.toList + 2 := by
    rw [String.toList_append, byteLength_append]
    rfl
  rw [split, String.toList_append] at place behind
  rw [byteLength_append, ← Nat.add_assoc, front] at behind
  have inner := place.right
  rw [front] at inner
  have equals : (⟨.punct .equals, o + byteLength sign.toList + 1,
      o + (byteLength sign.toList + 2)⟩ : Lexeme).token = .punct .equals := rfl
  have read := reads_node kept lexed inner equals rfl behind (Lexeme.shift o ⟨token, 0, byteLength sign.toList⟩) d
  refine ⟨{ d with module := add text d.module }, ?_, by rw [module], bodies⟩
  rw [reads _ rfl, reads_bind]
  refine ⟨text, rest, d, ?_, reads_alter⟩
  have shifted : ((⟨.punct .equals, 1, 2⟩ :: ts.map (·.shift 3)).map
      (·.shift (byteLength sign.toList))).map (·.shift o) =
        ⟨.punct .equals, o + byteLength sign.toList + 1, o + (byteLength sign.toList + 2)⟩ ::
          ts.map (·.shift (o + (byteLength sign.toList + 2) + 1)) := by
    simp [Lexeme.shift, Function.comp_def, Nat.add_assoc]
  rw [shifted]
  exact read

theorem yields_metadata {node : UInt32} {text : String} (kept : KeptNode text) :
    Yields src ("!" ++ toString node.toNat ++ " = " ++ text ++ "\n") (Drafted M B)
      (Drafted (M.addMetadata node text) B) :=
  yields_node (.nodeRef node) (fun text m => m.addMetadata node text)
    (by simpa using Spelling.nodeRef (word32?_toString node)) rfl kept fun t token => by
      rw [readEntity, token]

/-- A name that can stand after an exclamation mark. -/
def NodeName (name : String) : Prop :=
  ∃ c cs, name.toList = c :: cs ∧ c.isDigit = false ∧ ∀ d ∈ c :: cs, isNameChar d = true

theorem yields_namedMetadata {name text : String} (known : NodeName name) (kept : KeptNode text) :
    Yields src ("!" ++ name ++ " = " ++ text ++ "\n") (Drafted M B)
      (Drafted (M.addNamedMetadata name text) B) := by
  obtain ⟨c, cs, same, no_digit, names⟩ := known
  have spelled := Spelling.nodeName no_digit names
  rw [← same, String.ofList_toList] at spelled
  exact yields_node (.nodeName name) (fun text m => m.addNamedMetadata name text)
    (by simpa [same] using spelled) rfl kept fun t token => by
      rw [readEntity, token]

end

end BlockTally.Listing
