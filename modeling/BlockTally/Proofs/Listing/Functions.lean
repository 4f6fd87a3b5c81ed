import BlockTally.Proofs.Listing.Keeps

/-! Written functions at the top level. A declaration is read at once; of a definition the body is
left for later. Main statements: `yields_declaration`, `yields_definition`. -/
namespace BlockTally.Listing
open Text Read

/-- Text behind the parameters. That of a declaration stands on the line of the parenthesis, that of
a definition ends before the brace that opens the body. -/
def KeptTrail (f : Function) : Prop :=
  ∃ ts, Raw f.attrs.trail ts ∧
    if f.isDeclaration then ∀ u ∈ ts, u.start < firstLine f.attrs.trail.toList
    else ∀ u ∈ ts, u.token ≠ .punct .lbrace

section
variable {src : List Char} {m M : Module} {f : Function}
variable {B : List (FuncId × List Lexeme) → Prop}

/-- The tokens of the text behind the parameters, with the blank before it. -/
structure TrailTokens (src : List Char) (f : Function) (ts us : List Lexeme) : Prop where
  lexes : Lexes Ends (trailText f).toList us
  same : us.map (·.token) = ts.map (·.token)
  span : ∀ p, At src p (trailText f).toList → span? src (us.map (·.shift p)) = some f.attrs.trail
  onLine : (∀ u ∈ ts, u.start < firstLine f.attrs.trail.toList) →
    ∀ u ∈ us, u.start < firstLine (trailText f).toList

variable (src) in
private theorem trailTokens {ts : List Lexeme} (raw : Raw f.attrs.trail ts) :
    ∃ us, TrailTokens src f ts us := by
  by_cases none : f.attrs.trail = ""
  · have text : trailText f = "" := by rw [trailText, none]; rfl
    have lexed := raw.lexed.lexFrom
    rw [none, String.toList_empty, lexFrom] at lexed
    cases lexed
    refine ⟨[], ?_, rfl, fun _ _ => congrArg some none.symm, fun _ u mem => absurd mem List.not_mem_nil⟩
    rw [text]
    exact .nil
  · have text : trailText f = " " ++ f.attrs.trail := by
      rw [trailText, if_neg (by simpa [String.isEmpty_iff] using none)]
    have blank : Lexes Anywhere [' '] [] := lexes_gap (by decide)
    refine ⟨ts.map (·.shift 1), ?_, map_token_shift 1 ts, ?_, ?_⟩
    · rw [text, String.toList_append]
      exact blank.append raw.lexes fun _ _ => trivial
    · intro p place
      rw [text, String.toList_append] at place
      have span := raw.span? place.right
      have shifted : (ts.map (·.shift 1)).map (·.shift p) = ts.map (·.shift (p + 1)) := by
        simp [Lexeme.shift_shift, Function.comp_def]
      rw [shifted]
      exact span
    · intro onLine u mem
      obtain ⟨v, here, rfl⟩ := List.mem_map.mp mem
      have := onLine v here
      rw [text, String.toList_append, firstLine_append (by decide)]
      exact Nat.add_lt_add_left this 1

private theorem reads_addFunction {g : Function} {start : Nat} {ts : List Lexeme} {d : Draft}
    (fresh : d.module.symbol? g.name = none) :
    Reads (enter start (Register.addFunction g)) ts d ⟨d.module.functions.length⟩ ts
      { d with module := { d.module with functions := d.module.functions ++ [g] } } := by
  refine reads_enter (Module.registerFunction_eq_ok.mpr ?_)
  rw [Module.addFunction, if_neg (by simp [fresh])]

/-! Declarations. -/

private theorem reads_declaration {pieces : List Piece} {first : Lexeme}
    {fs line rest : List Lexeme} {paren : Lexeme} {d : Draft}
    (accepts : Accepts (readHeader src) (headerDescribed src f pieces) (fun _ => True)
      (fun s => s = d) fun g s => g = f.announced m ∧ s = d)
    (unclosed : openHeaderDescribed src f pieces fs) (closing : paren.token = .punct .rparen)
    (trail : Reads (lineText src paren.stop) (line ++ rest) d f.attrs.trail rest d)
    (fresh : d.module.symbol? f.name = none) :
    Reads (readDeclaration src first) (fs ++ (paren :: line ++ rest)) d () rest
      { d with module := { d.module with functions := d.module.functions ++ [f.opened m] } } := by
  obtain ⟨g, t, header, same, alike⟩ := accepts (fs ++ [paren]) (line ++ rest) d
    (header_closed unclosed closing) trivial rfl
  subst alike
  simp only [readDeclaration, reads_bind]
  refine ⟨(g, fs ++ [paren]), line ++ rest, t, reads_traced.mpr ⟨?_, ?_⟩, ?_⟩
  · simpa using header
  · simp
  · have last : (first :: (fs ++ [paren])).getLast? = some paren := by
      rw [← List.cons_append, List.getLast?_append, List.getLast?_singleton, Option.some_or]
    have added : Reads (enter first.start (Register.addFunction (f.opened m))) rest t _ rest _ :=
      reads_addFunction fresh
    subst same
    rw [last]
    simp only [reads_bind, reads_pure]
    exact ⟨_, rest, t, trail, _, rest, _, added, trivial, rfl, rfl⟩

/-- The lexemes of a first line, of which the text before the parenthesis has `fs` and the text
behind the parameters `us`. -/
def headLexemes (text : String) (fs us : List Lexeme) : List Lexeme :=
  fs ++ (⟨.punct .rparen, byteLength text.toList, byteLength text.toList + 1⟩ ::
    us.map (·.shift (byteLength text.toList + 1)))

private theorem shift_headLexemes (n : Nat) (text : String) (fs us : List Lexeme) :
    (headLexemes text fs us).map (·.shift n) = fs.map (·.shift n) ++
      (⟨.punct .rparen, n + byteLength text.toList, n + byteLength text.toList + 1⟩ ::
        us.map (·.shift (n + byteLength text.toList + 1))) := by
  simp [headLexemes, Lexeme.shift, Function.comp_def, Nat.add_assoc]

private theorem lexes_head {text : String} {fs us : List Lexeme} (lexes : Lexes Ends text.toList fs)
    (trail : Lexes Ends (trailText f).toList us) :
    Lexes Ends (text ++ (")" ++ trailText f)).toList (headLexemes text fs us) := by
  have paren : Lexes Anywhere [')'] [⟨.punct .rparen, 0, 1⟩] := lexes_punct (by decide) rfl
  have back := paren.append trail fun _ _ => trivial
  have all := lexes.append back fun post _ => ends_cons (by decide)
  have one : byteLength [')'] = 1 := rfl
  rw [one] at all
  rw [String.toList_append, String.toList_append]
  simpa [headLexemes, Lexeme.shift, Function.comp_def, Nat.add_assoc] using all

private theorem lexes_declare : Lexes Anywhere "declare ".toList [⟨.word "declare", 0, 7⟩] := by
  have word : Lexes Ends "declare".toList [⟨.word "declare", 0, 7⟩] := spelled_first (by decide)
  have blank : Lexes Anywhere " ".toList [] := lexes_gap (by decide)
  exact word.append blank fun post _ => ends_cons (by decide)

private theorem lexes_declaration {text line : String} {fs us : List Lexeme}
    (line_eq : text ++ (")" ++ trailText f) = line) (lexes : Lexes Ends text.toList fs)
    (trail : Lexes Ends (trailText f).toList us) :
    Lexes Anywhere ("declare " ++ (line ++ "\n")).toList
      (⟨.word "declare", 0, 7⟩ :: (headLexemes text fs us).map (·.shift 8)) := by
  have here := lexes_head lexes trail
  rw [line_eq] at here
  have newline : Lexes Anywhere ['\n'] [] := lexes_gap (by decide)
  have all := lexes_declare.append (here.append newline fun post _ => ends_cons (by decide))
    fun _ _ => trivial
  have eight : byteLength "declare ".toList = 8 := rfl
  rw [eight] at all
  rw [String.toList_append, String.toList_append]
  simpa using all

variable (src) in
/-- The line of a declaration enters it. -/
theorem yields_declaration (header : HeaderReadable f) (kept : KeptTrail f)
    (declared : f.blocks = []) (fresh : M.symbol? f.name = none) : ∃ text,
    functionText m f = some text ∧ Yields src text (Drafted M B)
      (Drafted { M with functions := M.functions ++ [f.opened m] } B) := by
  obtain ⟨pieces, ⟨text, head, ⟨fs, lexes, fits⟩⟩, accepts⟩ := header_pieces src (m := m) header
  obtain ⟨ts, raw, onLine⟩ := kept
  have is_declaration : f.isDeclaration = true := by rw [Function.isDeclaration, declared]; rfl
  rw [if_pos is_declaration] at onLine
  obtain ⟨us, trail⟩ := trailTokens src raw
  generalize whole : text ++ (")" ++ trailText f) = line at head
  have written : functionText m f = some ("declare " ++ (line ++ "\n")) := by
    rw [functionText, declared, head]
    simp [← String.toList_inj]
  refine ⟨_, written, yields_entity (lexes_declaration whole lexes trail.lexes) (by decide) ?_⟩
  rintro o rest d place behind - ⟨module, bodies⟩
  subst module
  have shifted : ((headLexemes text fs us).map (·.shift 8)).map (·.shift o) =
      (headLexemes text fs us).map (·.shift (o + 8)) := by
    simp [Lexeme.shift_shift, Function.comp_def]
  rw [shifted, shift_headLexemes, List.append_assoc]
  generalize stop : o + 8 + byteLength text.toList = q
  have split := place
  rw [String.toList_append] at split
  have inner := split.right
  have eight : byteLength "declare ".toList = 8 := rfl
  rw [eight, String.toList_append, ← whole, String.toList_append, List.append_assoc] at inner
  have tail := inner.right
  rw [String.toList_append, List.append_assoc, stop] at tail
  have inside : ∀ u ∈ us.map (·.shift (q + 1)),
      u.start < q + 1 + firstLine (trailText f).toList := by
    intro u mem
    obtain ⟨v, here, rfl⟩ := List.mem_map.mp mem
    exact Nat.add_lt_add_left (trail.onLine onLine v here) _
  have outside : ∀ u ∈ rest, q + 1 + firstLine (trailText f).toList ≤ u.start := by
    intro u mem
    have after := behind u mem
    have := firstLine_le (trailText f).toList
    rw [← whole] at after
    simp only [String.toList_append, byteLength_append, eight] at after
    have one : byteLength ")".toList = 1 := rfl
    omega
  have line_read : Reads (lineText src (q + 1)) (us.map (·.shift (q + 1)) ++ rest) d f.attrs.trail
      rest d :=
    reads_lineText tail.right.lineEnd? inside outside (trail.span _ tail.right.left)
  have read : ∀ first, Reads (readDeclaration src first)
      (_ ++ (⟨.punct .rparen, q, q + 1⟩ :: _ ++ rest)) d () rest _ := fun first =>
    reads_declaration accepts (fits _ inner.left) rfl line_read fresh
  exact ⟨_, read _, rfl, bodies⟩

/-! Definitions. -/

/-- The tokens that are kept for the body of `f`. -/
def BodyKept (m : Module) (f : Function) (ts : List Lexeme) : Prop :=
  ∃ entry blocks inside rest, f.blocks = entry :: blocks ∧ ts = inside ++ rest ∧
    inside.map (·.token) = bodyTokens m f entry blocks ++ [.punct .rbrace]

private theorem writes_blocks {blocks : List Block} (labels : ∀ b ∈ blocks, Unquoted b.name)
    (known : ∀ b ∈ blocks, ∀ inst ∈ b.insts, InstructionKnown m f inst) {first : String}
    {toks : List Token} (spells : Spells Anywhere first toks) :
    ∃ others, blocks.mapM (blockLines m f false) = some others ∧
      Spells Anywhere ("\n".intercalate (first :: others))
        (toks ++ blocks.flatMap (blockTokens m f false)) := by
  induction blocks generalizing first toks with
  | nil =>
    refine ⟨[], rfl, ?_⟩
    simpa using spells
  | cons b blocks ih =>
    obtain ⟨text, here, spells'⟩ := writes_blockLines false (labels b List.mem_cons_self)
      (known b List.mem_cons_self)
    obtain ⟨others, there, more⟩ := ih (fun c mem => labels c (List.mem_cons_of_mem _ mem))
      (fun c mem => known c (List.mem_cons_of_mem _ mem)) spells'
    refine ⟨text :: others, by rw [List.mapM_cons, here, there]; rfl, ?_⟩
    rw [String.intercalate_cons_cons, List.flatMap_cons]
    have whole := (spells.next spells_break).next more
    rwa [List.append_nil] at whole

private theorem writes_body {entry : Block} {blocks : List Block}
    (body : f.blocks = entry :: blocks) (labels : ∀ b ∈ f.blocks, Unquoted b.name)
    (known : ∀ inst ∈ f.instructions, InstructionKnown m f inst) :
    ∃ first others, blockLines m f true entry = some first ∧
      blocks.mapM (blockLines m f false) = some others ∧
      Spells Anywhere ("\n".intercalate (first :: others)) (bodyTokens m f entry blocks) := by
  have all : ∀ b ∈ entry :: blocks, ∀ inst ∈ b.insts, InstructionKnown m f inst := by
    intro b mem inst inside
    refine known inst ?_
    rw [Function.instructions, body]
    exact List.mem_flatMap.mpr ⟨b, mem, inside⟩
  rw [body] at labels
  obtain ⟨first, here, spells⟩ := writes_blockLines true (labels entry List.mem_cons_self)
    (all entry List.mem_cons_self)
  obtain ⟨others, there, whole⟩ := writes_blocks (fun b mem => labels b (List.mem_cons_of_mem _ mem))
    (fun b mem => all b (List.mem_cons_of_mem _ mem)) spells
  rw [bodyTokens_eq]
  exact ⟨first, others, here, there, whole⟩

private theorem bodyTokens_flat {entry : Block} {blocks : List Block} :
    ∀ t ∈ bodyTokens m f entry blocks, t ≠ .punct .lbrace ∧ t ≠ .punct .rbrace := by
  intro t mem
  rcases List.mem_append.mp mem with label | line
  · unfold blockLabelTokens at label
    split at label
    · cases label
    · rw [List.mem_singleton.mp label]
      exact ⟨nofun, nofun⟩
  · exact linesTokens_flat m f _ t line

private theorem reads_definition {pieces : List Piece} {start : Nat}
    {hs ss inside rest : List Lexeme}
    {brace : Lexeme} {d : Draft} {entry : Block} {blocks : List Block}
    (accepts : Accepts (readHeader src) (headerDescribed src f pieces) (fun _ => True)
      (fun s => s = d) fun g s => g = f.announced m ∧ s = d)
    (header : headerDescribed src f pieces hs) (span : span? src ss = some f.attrs.trail)
    (no_brace : ∀ u ∈ ss, u.token ≠ .punct .lbrace) (opens : brace.token = .punct .lbrace)
    (body : inside.map (·.token) = bodyTokens m f entry blocks ++ [.punct .rbrace])
    (fresh : d.module.symbol? f.name = none) :
    Reads (readDefinition src start) (hs ++ (ss ++ (brace :: inside ++ rest))) d () rest
      { module := { d.module with functions := d.module.functions ++ [f.opened m] }
        bodies := d.bodies ++ [(⟨d.module.functions.length⟩, inside ++ rest)] } := by
  obtain ⟨g, t, read, same, alike⟩ := accepts hs (ss ++ (brace :: inside ++ rest)) d header trivial rfl
  subst alike same
  have added : Reads (enter start (Register.addFunction (f.opened m))) rest t _ rest _ :=
    reads_addFunction fresh
  have closed : closes .lbrace .rbrace 1 (inside.map (·.token)) = true := by
    rw [body]
    exact closes_flat (by decide) bodyTokens_flat
  have trail : (ss ++ (brace :: inside ++ rest)).dropWhile (·.token != .punct .lbrace) =
      brace :: inside ++ rest := by
    rw [List.dropWhile_append_of_pos (by simpa using no_brace)]
    simp [opens]
  simp only [readDefinition, reads_bind, reads_taken, reads_skipWhile, reads_eat, reads_readSpan]
  refine ⟨_, _, t, read, ss, brace :: inside ++ rest, t, ⟨⟨trail.symm, rfl⟩, rfl⟩, _, _, t,
    ⟨span, rfl, rfl⟩, true, inside ++ rest, t, ⟨by simp [opens], rfl, rfl⟩, ?_⟩
  simp only [Bool.not_true, Bool.false_eq_true, if_false, reads_bind, reads_ahead, reads_closeGroup]
  refine ⟨inside ++ rest, _, t, ⟨rfl, rfl, rfl⟩, (), rest, t,
    ⟨afterGroup_eq_some.mpr ⟨inside, rfl, closed⟩, rfl⟩, ?_⟩
  exact ⟨_, rest, _, added, reads_update.mpr ⟨rfl, rfl⟩⟩

private theorem describes_head {pieces : List Piece} {text : String} {ts us : List Lexeme}
    (unclosed : Describes src Ends text (openHeaderDescribed src f pieces))
    (trail : TrailTokens src f ts us) :
    Describes src Ends (text ++ (")" ++ trailText f)) (Then (headerDescribed src f pieces)
      (Spanning src f.attrs.trail (ts.map (·.token)))) := by
  have behind : Describes src Ends (trailText f)
      (Spanning src f.attrs.trail (ts.map (·.token))) := by
    refine ⟨us, trail.lexes, fun o place => ⟨?_, trail.span o place⟩⟩
    rw [map_token_shift, trail.same]
  have closed := spells_rparen.describes.append behind fun _ _ => trivial
  have whole := unclosed.append closed fun post _ => by
    rw [String.toList_append, List.append_assoc]
    exact ends_cons (by decide)
  refine whole.imp (fun _ => id) ?_
  rintro _ ⟨fs, _, rfl, open_header, paren, ss, rfl, closing, spanning⟩
  obtain ⟨t, rfl, token⟩ := List.map_eq_singleton_iff.mp closing
  exact ⟨fs ++ [t], ss, by simp, header_closed open_header token, spanning⟩

variable (src) in
/-- The lines of a definition enter it, and leave its body for later. -/
theorem yields_definition (header : HeaderReadable f) (kept : KeptTrail f)
    (labels : ∀ b ∈ f.blocks, Unquoted b.name)
    (known : ∀ inst ∈ f.instructions, InstructionKnown m f inst) (defined : f.blocks ≠ [])
    (fresh : M.symbol? f.name = none) : ∃ text,
    functionText m f = some text ∧ Yields src text (Drafted M B)
      (Drafted { M with functions := M.functions ++ [f.opened m] } fun bodies =>
        ∃ before ts, bodies = before ++ [(⟨M.functions.length⟩, ts)] ∧ B before ∧
          BodyKept m f ts) := by
  obtain ⟨pieces, ⟨text, head, describes⟩, accepts⟩ := header_pieces src (m := m) header
  obtain ⟨entry, blocks, body⟩ := List.exists_cons_of_ne_nil defined
  obtain ⟨ts, raw, no_brace⟩ := kept
  have not_declaration : ¬ f.isDeclaration = true := by
    rw [Function.isDeclaration, body]
    exact Bool.false_ne_true
  rw [if_neg not_declaration] at no_brace
  obtain ⟨us, trail⟩ := trailTokens src raw
  obtain ⟨first, others, first_block, other_blocks, spells⟩ := writes_body body labels known
  have line := describes_head describes trail
  generalize text ++ (")" ++ trailText f) = line_text at head line
  have opening : Spells Anywhere " \x7b\n" [.punct .lbrace] :=
    (spells_space.next (spells_punct (by decide) (c := '{') rfl)).next spells_break
  have closing : Spells Anywhere "\x7d\n" [.punct .rbrace] :=
    (spells_punct (by decide) (c := '}') rfl).next spells_break
  have braces : Describes src Anywhere _ _ := ((opening.next spells).next closing).describes
  have behind := (line.append braces fun post _ => by
    rw [String.toList_append, String.toList_append, List.append_assoc, List.append_assoc]
    exact ends_cons (by decide)).leading spells_space
  have written : functionText m f = some ("define" ++ (" " ++ (line_text ++
      (" \x7b\n" ++ "\n".intercalate (first :: others) ++ "\x7d\n")))) := by
    rw [functionText, body]
    simp only [first_block, other_blocks, head]
    simp [← String.toList_inj]
  refine ⟨_, written, yields_described (spelled_first (by decide)) ?_ (by decide) behind ?_⟩
  · intro post
    rw [String.toList_append, List.append_assoc]
    exact ends_cons (by decide)
  · rintro o _ rest d - ⟨_, back, rfl, ⟨hs, ss, rfl, header_fits, same, span⟩, tokens⟩ - - ⟨module, bodies⟩
    subst module
    rw [Of, List.append_assoc, List.singleton_append] at tokens
    obtain ⟨brace, inside, rfl, opens, inside_tokens⟩ := List.map_eq_cons_iff.mp tokens
    have no_brace' : ∀ u ∈ ss, u.token ≠ .punct .lbrace := by
      intro u mem
      have token : u.token ∈ ts.map (·.token) := same ▸ List.mem_map_of_mem mem
      obtain ⟨v, here, alike⟩ := List.mem_map.mp token
      rw [← alike]
      exact no_brace v here
    have read : Reads (readDefinition src o) (hs ++ (ss ++ (brace :: inside ++ rest))) d () rest _ :=
      reads_definition accepts header_fits span no_brace' opens inside_tokens fresh
    rw [List.append_assoc, List.append_assoc]
    exact ⟨_, read, rfl, d.bodies, _, rfl, bodies, entry, blocks, inside, rest, body, rfl,
      inside_tokens⟩

end

end BlockTally.Listing
