import BlockTally.Proofs.Listing.Registered

/-! Where the two passes over a body end. The first takes the tokens up to the brace that closes the
opening one; the second takes lines, and groups inside them, up to a closing brace where a line would
begin. That is the same brace as long as the braces inside parentheses are balanced. Main statement:
`parse_extents`. -/
namespace BlockTally.Listing
open Read

/-- A closing brace behind the tokens closes the group in which they stand. -/
def Balanced (toks : List Token) : Prop :=
  closes .lbrace .rbrace 1 (toks ++ [.punct .rbrace]) = true

/-- A parenthesised group holds braces that are not balanced. -/
def BracesAcrossParens (ts : List Lexeme) : Prop :=
  ∃ before opening inside after, ts = before ++ opening :: inside ++ after ∧
    opening.token = .punct .lparen ∧ closes .lparen .rparen 1 (inside.map (·.token)) = true ∧
    ¬ Balanced (inside.map (·.token))

section
variable {opening closing : Punct} {toks more : List Token} {n k : Nat}

/-- Groups that end do not matter for those around them. -/
theorem closes_append (ends : closes opening closing n toks = true) :
    closes opening closing (n + k) (toks ++ more) = closes opening closing k more := by
  induction toks generalizing n with
  | nil =>
    cases n with
    | zero => rw [Nat.zero_add, List.nil_append]
    | succ => exact absurd ends Bool.false_ne_true
  | cons t toks ih =>
    cases n with
    | zero => exact absurd ends Bool.false_ne_true
    | succ n =>
      rw [Nat.add_right_comm, List.cons_append]
      simp only [closes] at ends ⊢
      rw [← ih ends]
      congr 1
      split <;> [skip; split] <;> omega

/-- Tokens that leave open what was open, inside other groups. -/
theorem closes_balanced
    (ends : closes .lbrace .rbrace (n + 1) (toks ++ [.punct .rbrace]) = true) :
    closes .lbrace .rbrace (n + 1 + k) (toks ++ more) =
      closes .lbrace .rbrace (k + 1) more := by
  induction toks generalizing n with
  | nil =>
    cases n with
    | zero => rw [Nat.zero_add, Nat.add_comm, List.nil_append]
    | succ => exact absurd ends Bool.false_ne_true
  | cons t toks ih =>
    rw [Nat.add_right_comm, List.cons_append]
    rw [List.cons_append] at ends
    simp only [closes] at ends ⊢
    split at ends
    · rw [if_pos ‹_›, ← ih ends, Nat.add_right_comm]
    · split at ends
      · cases n with
        | zero => simp [closes] at ends
        | succ n => rw [if_neg ‹_›, if_pos ‹_›, ← ih ends, Nat.add_right_comm]
      · rw [if_neg ‹_›, if_neg ‹_›, ← ih ends, Nat.add_right_comm]

theorem Balanced.append (first : Balanced toks) (second : Balanced more) : Balanced (toks ++ more) := by
  rw [Balanced, List.append_assoc]
  exact (closes_balanced (k := 0) first).trans second

private theorem balanced_single {t : Token} (flat : isFlat t = true) : Balanced [t] := by
  have other : t ≠ .punct .lbrace ∧ t ≠ .punct .rbrace := by
    constructor <;> (rintro rfl; exact absurd flat Bool.false_ne_true)
  exact closes_flat (by decide) (by simpa using other)

private theorem balanced_group (ends : closes .lbrace .rbrace 1 toks = true) :
    Balanced (.punct .lbrace :: toks) := closes_append (n := 1) (k := 1) ends

end

section
variable {name text : String} {m : Module} {ts inner : List Lexeme}

/-- Braces that stand alone do so in parentheses. -/
theorem Passed.balanced (passed : Passed ts) :
    Balanced (ts.map (·.token)) ∨ BracesAcrossParens ts := by
  induction passed with
  | nil => exact .inl (closes_flat (by decide) (by simp))
  | @single t ts flat more ih =>
    rcases ih with level | ⟨before, opening, inside, after, rfl, group⟩
    · exact .inl ((balanced_single flat).append level)
    · exact .inr ⟨t :: before, opening, inside, after, rfl, group⟩
  | @parens t inside ts opens ends more ih =>
    by_cases level : Balanced (inside.map (·.token))
    · rcases ih with rest | ⟨before, opening, inside', after, rfl, group⟩
      · refine .inl ?_
        have all := (balanced_single (t := t.token) (by rw [opens]; rfl)).append (level.append rest)
        simpa using all
      · exact .inr ⟨t :: inside ++ before, opening, inside', after, by simp, group⟩
    · exact .inr ⟨[], t, inside, ts, rfl, opens, ends, level⟩
  | @braces t inside ts opens ends more ih =>
    rcases ih with rest | ⟨before, opening, inside', after, rfl, group⟩
    · refine .inl ?_
      have all := (balanced_group ends).append rest
      simpa [opens] using all
    · exact .inr ⟨t :: inside ++ before, opening, inside', after, by simp, group⟩

/-- The group that the tokens begin with ends at one place. -/
theorem extent_unique {extent extent' after after' : List Lexeme}
    (same : extent ++ after = extent' ++ after')
    (ends : closes .lbrace .rbrace 1 (extent.map (·.token)) = true)
    (ends' : closes .lbrace .rbrace 1 (extent'.map (·.token)) = true) :
    extent = extent' ∧ after = after' := by
  have first : (afterGroup .lbrace .rbrace 1 (extent ++ after)).map Subtype.val = some after :=
    afterGroup_eq_some.mpr ⟨extent, rfl, ends⟩
  have second : (afterGroup .lbrace .rbrace 1 (extent ++ after)).map Subtype.val = some after' :=
    afterGroup_eq_some.mpr ⟨extent', same, ends'⟩
  obtain rfl := Option.some.inj (first.symm.trans second)
  exact ⟨List.append_cancel_right same, rfl⟩

/-- The second pass reads the body of a function, when those before it are filled, and leaves
`left`. -/
def Fills (name text : String) (id : FuncId) (body left : List Lexeme) : Prop :=
  ∃ ts d earlier later m f scope, lex text.toList = .ok ts ∧
    Reads (readEntities text.toList) ts ({ module := { name } } : Draft) () [] d ∧
    d.bodies = earlier ++ (id, body) :: later ∧ earlier.foldlM fillFunction d.module = .ok m ∧
    m.function? id = some f ∧ Reads (readBody m.symbol?) body { function := f } () left scope

private theorem readEntities_ends {src : List Char} {d d' : Draft} {rest : List Lexeme} {u : Unit}
    (read : Reads (readEntities src) ts d u rest d') : rest = [] := by
  cases rest with
  | nil => rfl
  | cons t rest => exact absurd ((reads_whileNext.mp read).ends t rest rfl) (Option.some_ne_none t)

/-- Only the functions whose bodies are read are filled. -/
theorem fillFunctions_other {m' : Module} {id : FuncId} {bodies : List (FuncId × List Lexeme)}
    (ok : bodies.foldlM fillFunction m = .ok m') (other : id ∉ bodies.map (·.1)) :
    m'.function? id = m.function? id := by
  induction bodies generalizing m with
  | nil =>
    cases ok
    rfl
  | cons b bodies ih =>
    rw [List.foldlM_cons] at ok
    obtain ⟨m₁, first, more⟩ := Failure.bind_eq_ok.mp ok
    obtain ⟨k, body⟩ := b
    obtain ⟨f, rest, scope, -, -, rfl⟩ := fillFunction_eq_ok.mp first
    rw [List.map_cons, List.mem_cons, not_or] at other
    exact (ih more other.2).trans (function?_setFunction other.1)

/-- Each function with blocks has a body that the second pass reads. -/
theorem fills_of_parse (ok : parse name text = .ok m) {id : FuncId} {f : Function}
    (found : m.function? id = some f) (blocks : f.blocks ≠ []) :
    ∃ body left, Fills name text id body left := by
  obtain ⟨ts, rest, d, lexed, read, filled⟩ := parse_eq_ok.mp ok
  obtain rfl := readEntities_ends read
  obtain ⟨known, -⟩ := entities_read lexed read
  by_cases mem : id ∈ d.bodies.map (·.1)
  · obtain ⟨⟨_, body⟩, inside, rfl⟩ := List.mem_map.mp mem
    obtain ⟨earlier, later, split⟩ := List.append_of_mem inside
    rw [split, List.foldlM_append] at filled
    obtain ⟨m₁, before, more⟩ := Failure.bind_eq_ok.mp filled
    rw [List.foldlM_cons] at more
    obtain ⟨m₂, here, -⟩ := Failure.bind_eq_ok.mp more
    obtain ⟨g, left, scope, present, body_read, -⟩ := fillFunction_eq_ok.mp here
    exact ⟨body, left, ts, d, earlier, later, m₁, g, scope, lexed, read, split, before, present,
      body_read⟩
  · have same := (fillFunctions_other filled mem).symm.trans found
    exact absurd (known.headed f (List.mem_of_getElem? same)).blocks blocks

/-- A body waits until those before it are filled. -/
theorem fresh_of_earlier {src : List Char} {d : Draft} {id : FuncId} {body : List Lexeme}
    {earlier later : List (FuncId × List Lexeme)} {f : Function} (known : DraftKept src d)
    (split : d.bodies = earlier ++ (id, body) :: later)
    (filled : earlier.foldlM fillFunction d.module = .ok m) (found : m.function? id = some f) :
    Fresh f := by
  have distinct := known.ids
  rw [split, List.map_append, List.nodup_append] at distinct
  have other : id ∉ earlier.map (·.1) := fun mem => distinct.2.2 id mem id (by simp) rfl
  have drafted := (fillFunctions_other filled other).symm.trans found
  exact (known.headed f (List.mem_of_getElem? drafted)).fresh

/-- The second pass over a body ends at a closing brace where a line would begin. The first pass took
the body up to the same brace if and only if braces are balanced up to there; they are, unless a
parenthesised group holds braces that are not. -/
theorem parse_extents (ok : parse name text = .ok m) :
    (∀ id f, m.function? id = some f → f.blocks ≠ [] → ∃ body left, Fills name text id body left) ∧
    ∀ id body left, Fills name text id body left → ∃ inner closing extent after,
      body = inner ++ closing :: left ∧ Passed inner ∧ closing.token = .punct .rbrace ∧
      body = extent ++ after ∧ closes .lbrace .rbrace 1 (extent.map (·.token)) = true ∧
      (extent = inner ++ [closing] ↔ Balanced (inner.map (·.token))) ∧
      (Balanced (inner.map (·.token)) ∨ BracesAcrossParens inner) := by
  refine ⟨fun id f found blocks => fills_of_parse ok found blocks, ?_⟩
  rintro id body left ⟨ts, d, earlier, later, m', f, scope, lexed, entities, split, filled, found, read⟩
  obtain ⟨known, -⟩ := entities_read lexed entities
  have inside : (id, body) ∈ d.bodies := by simp [split]
  obtain ⟨⟨-, extent, after, rfl, -, -, ends⟩, g, drafted, -⟩ := known.defined _ inside
  have fresh := fresh_of_earlier known split filled found
  obtain ⟨-, -, -, closing, ⟨inner, whole, passed⟩, brace⟩ := readBody_filled fresh read
  refine ⟨inner, closing, extent, after, whole, passed, brace, rfl, ends, ⟨?_, fun level => ?_⟩,
    passed.balanced⟩
  · rintro rfl
    simpa [Balanced, brace] using ends
  · have ends' : closes .lbrace .rbrace 1 ((inner ++ [closing]).map (·.token)) = true := by
      simpa [Balanced, brace] using level
    exact (extent_unique (by simpa using whole) ends ends').1

end

/-- The parentheses hide one brace from the second pass over each body, and the braces together make
one body of both for the first. -/
def crossed : String :=
  "define void @f() \x7b
  call void ( \x7b ) @f()
  ret void
\x7d
define void @h() \x7b
  call void ( \x7d ) @f()
  ret void
\x7d
"

def crossedTokens : List Lexeme :=
  [⟨.word "define", 0, 6⟩, ⟨.word "void", 7, 11⟩, ⟨.globalName "f", 12, 14⟩,
   ⟨.punct .lparen, 14, 15⟩, ⟨.punct .rparen, 15, 16⟩, ⟨.punct .lbrace, 17, 18⟩,
   ⟨.word "call", 21, 25⟩, ⟨.word "void", 26, 30⟩, ⟨.punct .lparen, 31, 32⟩,
   ⟨.punct .lbrace, 33, 34⟩, ⟨.punct .rparen, 35, 36⟩, ⟨.globalName "f", 37, 39⟩,
   ⟨.punct .lparen, 39, 40⟩, ⟨.punct .rparen, 40, 41⟩, ⟨.word "ret", 44, 47⟩,
   ⟨.word "void", 48, 52⟩, ⟨.punct .rbrace, 53, 54⟩] ++
  [⟨.word "define", 55, 61⟩,
   ⟨.word "void", 62, 66⟩, ⟨.globalName "h", 67, 69⟩, ⟨.punct .lparen, 69, 70⟩,
   ⟨.punct .rparen, 70, 71⟩, ⟨.punct .lbrace, 72, 73⟩, ⟨.word "call", 76, 80⟩,
   ⟨.word "void", 81, 85⟩, ⟨.punct .lparen, 86, 87⟩, ⟨.punct .rbrace, 88, 89⟩,
   ⟨.punct .rparen, 90, 91⟩, ⟨.globalName "f", 92, 94⟩, ⟨.punct .lparen, 94, 95⟩,
   ⟨.punct .rparen, 95, 96⟩, ⟨.word "ret", 99, 102⟩, ⟨.word "void", 103, 107⟩,
   ⟨.punct .rbrace, 108, 109⟩]

/-- The function that is met first, before its body is read and then. -/
def crossedHead : Function := { name := "f", ret := .void }

def crossedFilled : Function := { crossedHead with
  blocks := [⟨"", [{ op := .call ⟨.void, .function ⟨0⟩, []⟩ }, { op := .ret .void none }]⟩] }

private theorem crossed_read : parse "m" crossed =
    .ok { name := "m", functions := [crossedFilled] } := by
  refine (parse_ofList "m" _).trans ?_
  decide +kernel

private theorem crossed_fills :
    Fills "m" crossed ⟨0⟩ (crossedTokens.drop 6) (crossedTokens.drop 17) := by
  have chars : crossed.toList = _ := String.toList_ofList
  have lexed : lex crossed.toList = .ok crossedTokens := by
    rw [chars]
    decide +kernel
  have entities : Reads (readEntities crossed.toList) crossedTokens { module := { name := "m" } } ()
      [] { module := { name := "m", functions := [crossedHead] },
           bodies := [(⟨0⟩, crossedTokens.drop 6)] } := by
    rw [chars]
    exact ⟨List.nil_suffix, by decide +kernel⟩
  have body : Reads (readBody (Module.symbol? { name := "m", functions := [crossedHead] })) (crossedTokens.drop 6)
      { function := crossedHead } () (crossedTokens.drop 17) { function := crossedFilled } :=
    ⟨⟨(crossedTokens.drop 6).take 11, rfl⟩, by decide +kernel⟩
  exact ⟨_, _, [], [], _, _, _, lexed, entities, rfl, rfl, rfl, body⟩

/-- The tokens that the second pass takes do not end where the first pass found the end: the whole
function behind the first is left unread. -/
theorem crossed_unread : ∃ m id body left, parse "m" crossed = .ok m ∧
    Fills "m" crossed id body left ∧
    ∀ extent, body = extent ++ left → closes .lbrace .rbrace 1 (extent.map (·.token)) = false := by
  refine ⟨_, ⟨0⟩, _, _, crossed_read, crossed_fills, fun extent whole => ?_⟩
  have known : crossedTokens.drop 6 = (crossedTokens.drop 6).take 11 ++ crossedTokens.drop 17 := rfl
  obtain rfl := List.append_cancel_right (known.symm.trans whole)
  decide

theorem parse_extents_crossed :
    parse "m" crossed = .ok { name := "m", functions := [crossedFilled] } ∧
    crossedFilled.blocks ≠ [] ∧ ∃ inner closing extent after,
      crossedTokens.drop 6 = inner ++ closing :: crossedTokens.drop 17 ∧
      crossedTokens.drop 6 = extent ++ after ∧
      closes .lbrace .rbrace 1 (extent.map (·.token)) = true ∧
      (Balanced (inner.map (·.token)) ∨ BracesAcrossParens inner) := by
  obtain ⟨-, each⟩ := parse_extents crossed_read
  obtain ⟨inner, closing, extent, after, whole, -, -, first, ends, -, level⟩ :=
    each _ _ _ crossed_fills
  exact ⟨crossed_read, List.cons_ne_nil _ _, inner, closing, extent, after, whole, first, ends, level⟩

end BlockTally.Listing
