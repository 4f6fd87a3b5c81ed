import BlockTally.Proofs.Listing.Beyond
import BlockTally.Proofs.Listing.Skipped

/-! Reading always moves on. The rounds of the top level and of a body are told here as they look ahead
and take tokens themselves; that they are the rounds of the loops that run depends on a token standing
before the end of its line. Main statement: `parse_advances`. -/
namespace BlockTally
open Listing

/-- The top-level entities that a module holds. -/
def Module.entityCount (m : Module) : Nat :=
  m.sourceFilename.toList.length + m.datalayout.toList.length + m.triple.toList.length +
    m.globals.length + m.functions.length + m.comdats.length + m.attributeGroups.length +
    m.namedMetadata.length + m.metadata.length

namespace Listing
open Read

/-! The loops, and how the readers run them. -/

section
variable {M : Type} [Register M]

/-- One entity, of which the first token is next. Some entities are the tokens of a line from that one
on, as far as they start before its end. -/
def readEntityAt (src : List Char) (first : Lexeme) : Read (DraftOf M) Unit :=
  match first.token with
  | .word "attributes" => do
    let line ← restOfLine src first.start
    let text ← readSpan src line
    alter (·.addAttributeGroup text)
  | .comdatRef => do
    let line ← restOfLine src first.start
    let text ← readSpan src line
    alter (·.addComdat text)
  | _ => do
    skip
    readEntity src first

/-- A round of the top level. -/
def entityRound (src : List Char) (_ : Unit) : Read (DraftOf M) (Turn Unit) := do
  match ← peek with
  | none => return .finished
  | some first =>
    readEntityAt src first
    return .more ()

end

/-- A round of a body: a line, or the closing brace. -/
def lineRound (m : Module) (current : Nat) : Read Scope (Turn Nat) := do
  match ← peek with
  | none => refuse .unterminatedBody
  | some first =>
    skip
    if first.token = .punct .rbrace then return .last current
    else return .more (← readLine m first current)

/-- Lines up to the closing brace. -/
def linesFrom (m : Module) (current : Nat) : Read Scope Nat := do
  let count ← whileNext pickLine (readLine m) current
  if !(← eat (.punct .rbrace)) then refuse .unterminatedBody
  return count

private theorem readLines_eq_linesFrom (m : Module) : readLines m = (do
    let _ ← linesFrom m 0
    readSettled) := by
  rw [readLines_eq]
  simp only [linesFrom, fillBlocks_eq, bind_assoc]
  apply bind_congr
  intro count
  apply bind_congr
  intro closed
  cases closed with
  | false => simp only [Bool.not_false, if_true, bind_assoc, pure_bind]
  | true => simp only [Bool.not_true, Bool.false_eq_true, if_false, pure_bind]

private theorem readBody_eq_lines (m : Module) : readBody m.symbol? = (do
    openBlocks
    let _ ← linesFrom m 0
    readSettled) := by
  rw [readBody_eq_open, readLines_eq_linesFrom]

def pickComma (_ : List α) (t : Lexeme) (_ : List Lexeme) : Option Unit :=
  if t.token = .punct .comma then some () else none

private theorem readArgs_eq (m : Module) : readArgs m.symbol? = (do
    if ← eat (.punct .rparen) then return []
    let args ← items pickComma (readArg m.symbol?) []
    if ← eat (.punct .rparen) then return args
    else unexpected (.token (.punct .comma))) := by
  simp only [readArgs, items, bind_assoc]
  rfl

def pickEdge (_ : List α) (t : Lexeme) (ts : List Lexeme) : Option Unit :=
  if t.token = .punct .comma && ts.head?.map Lexeme.token = some (.punct .lbracket) then some ()
  else none

private theorem readPhi_eq (m : Module) : readPhi m.symbol? = (do
    let ty ← readTy
    let incoming ← items pickEdge (readEdge m.symbol? ty) []
    return .phi ty incoming) := by
  simp only [readPhi, items, bind_assoc]
  rfl

def pickNote (_ : Trailer) (t : Lexeme) (ts : List Lexeme) : Option (Option String) :=
  if t.token != .punct .comma then none else
    match ts.head?.map Lexeme.token with
    | some (.word "align") => some none
    | some (.nodeName kind) => some (some kind)
    | _ => none

/-- An alignment or an attachment behind its comma. -/
def readNote (kind : Option String) (trailer : Trailer) : Read σ Trailer := do
  skip
  match kind with
  | none => return { trailer with align := some (← readWord32) }
  | some kind =>
    match ← readAttachment with
    | some node => return if kind = "dbg" then { trailer with dbg := some node } else trailer
    | none => return trailer

private theorem readTrailer_eq : (readTrailer : Read σ Trailer) =
    whileNext pickNote readNote {} := rfl

/-! Each of them advances. -/

section
variable {σ : Type} {all ts rest : List Lexeme}

private theorem readTy_shorter {s s' : σ} {ty : Ty} (read : Reads readTy ts s ty rest s') :
    rest.length < ts.length := by
  simp only [readTy, reads_bind, reads_place, reads_peekToken] at read
  obtain ⟨_, _, _, ⟨rfl, rfl, rfl⟩, _, ts, _, ⟨rfl, rfl, rfl⟩, read⟩ := read
  split at read
  · rename_i text here
    split at read
    · exact absurd read reads_refuse
    · obtain ⟨_, _, _, word, stars⟩ := reads_bind.mp read
      obtain ⟨rfl, rfl⟩ := reads_skip.mp word
      obtain ⟨t, next, -⟩ := Option.map_eq_some_iff.mp here
      obtain ⟨more, rfl⟩ := List.head?_eq_some_iff.mp next
      exact Nat.lt_succ_of_le stars.suffix.length_le
  · exact absurd read reads_refuse
  · exact absurd read reads_refuse
  · exact absurd read reads_refuse
  · exact absurd read reads_unexpected

private theorem readArg_shorter {m : Module} {s s' : Scope} {arg : Ty × Operand}
    (read : Reads (readArg m.symbol?) ts s arg rest s') : rest.length < ts.length := by
  obtain ⟨ty, between, _, type, more⟩ := reads_bind.mp read
  have shorter := readTy_shorter type
  have left := more.suffix.length_le
  omega

private theorem readEdge_shorter {m : Module} {ty : Ty} {s s' : Scope} {edge : Operand × BlockId}
    (read : Reads (readEdge m.symbol? ty) ts s edge rest s') : rest.length < ts.length := by
  obtain ⟨_, between, _, opening, more⟩ := reads_bind.mp read
  obtain ⟨bracket, rfl, -, rfl⟩ := reads_expect.mp opening
  exact Nat.lt_succ_of_le more.suffix.length_le

private theorem eat_bind_hit {β : Type} {token : Token} {f : Bool → Read σ β} {t : Lexeme} {s : σ}
    (same : t.token = token) :
    (eat token >>= f) (t :: ts) s = (skip >>= fun _ => f true) (t :: ts) s := by
  simp only [eat, accept, bind_assoc]
  rw [peekToken_bind]
  simp [same]

private theorem eat_bind_miss {β : Type} {token : Token} {f : Bool → Read σ β} {s : σ}
    (other : ts.head?.map Lexeme.token ≠ some token) :
    (eat token >>= f) ts s = f false ts s := by
  simp only [eat, accept, bind_assoc]
  rw [peekToken_bind]
  cases ts with
  | nil => simp
  | cons t ts =>
    have apart : t.token ≠ token := by simpa using other
    simp [apart]

private theorem linesFrom_unrolls (m : Module) (current : Nat) (s : Scope) :
    linesFrom m current ts s = (lineRound m current >>= follow (linesFrom m) current) ts s := by
  rw [linesFrom, lineRound, bind_assoc, peek_bind]
  cases ts with
  | nil =>
    rw [bind_congr_first (whileNext_stop (stops_nil current)), pure_bind, eat_bind_miss (by simp)]
    rfl
  | cons t ts =>
    dsimp only [List.head?_cons]
    by_cases closing : t.token = .punct .rbrace
    · have stop : Stops pickLine current (t :: ts) := stops_cons.mpr (if_pos closing)
      rw [bind_congr_first (whileNext_stop stop), pure_bind, eat_bind_hit closing]
      simp [closing, follow]
    · have picked : pickLine current t ts = some t := if_neg closing
      rw [bind_congr_first (whileNext_go picked)]
      simp [closing, follow, linesFrom, bind_assoc]

private theorem advances_lines (m : Module) :
    Advances all (lineRound m) (linesFrom m) fun _ _ => False := by
  apply advances_of_rounds
  · intro ts _ current s turn rest s' read
    obtain ⟨_, ts, _, looked, more⟩ := reads_bind.mp read
    obtain ⟨rfl, rfl, rfl⟩ := reads_peek.mp looked
    cases ts with
    | nil => exact absurd more reads_refuse
    | cons t ts =>
      dsimp only [List.head?_cons] at more
      obtain ⟨_, _, _, skipped, behind⟩ := reads_bind.mp more
      obtain ⟨rfl, rfl⟩ := reads_skip.mp skipped
      refine .inr ⟨?_, Nat.lt_succ_of_le behind.suffix.length_le⟩
      split at behind
      · obtain ⟨rfl, -, -⟩ := reads_pure.mp behind
        exact nofun
      · obtain ⟨next, _, _, -, last⟩ := reads_bind.mp behind
        obtain ⟨rfl, -, -⟩ := reads_pure.mp last
        exact nofun
  · intro ts _ current s
    exact linesFrom_unrolls m current s

end

section
variable {σ : Type} {src : List Char} {all ts rest : List Lexeme}

/-- The token starts before the end of its line. -/
def InLine (src : List Char) (t : Lexeme) : Prop :=
  ∃ stop, Text.lineEnd? src t.start = some stop ∧ t.start < stop

private theorem restOfLine_run {offset stop : Nat} (line : Text.lineEnd? src offset = some stop)
    (s : σ) :
    (restOfLine src offset : Read σ (List Lexeme)) ts s =
      .ok (ts.takeWhile (·.start < stop),
        ⟨ts.dropWhile (·.start < stop), List.dropWhile_suffix _⟩, s) := by
  have split := List.takeWhile_append_dropWhile (p := (·.start < stop)) (l := ts)
  have read : Reads (restOfLine src offset : Read σ (List Lexeme)) ts s _ _ s :=
    reads_bind.mpr ⟨stop, ts, s, reads_present.mpr ⟨line, rfl, rfl⟩,
      reads_taken.mpr ⟨reads_skipWhile.mpr ⟨rfl, rfl⟩, split.symm⟩⟩
  exact read.2

/-- A line that is taken from its first token on is that token with the rest of the line. -/
theorem restOfLine_first {β : Type} {t : Lexeme} (inLine : InLine src t) (f : List Lexeme → Read σ β)
    (s : σ) : (restOfLine src t.start >>= f) (t :: ts) s =
      (skip >>= fun _ => restOfLine src t.start >>= fun line => f (t :: line)) (t :: ts) s := by
  obtain ⟨stop, line, before⟩ := inLine
  have inside : decide (t.start < stop) = true := decide_eq_true before
  have took : (t :: ts).takeWhile (·.start < stop) = t :: ts.takeWhile (·.start < stop) :=
    List.takeWhile_cons_of_pos inside
  have left : (t :: ts).dropWhile (·.start < stop) = ts.dropWhile (·.start < stop) :=
    List.dropWhile_cons_of_pos inside
  simp only [bind, skip, advance, restOfLine_run line, List.tail_cons, took, left]
  cases f (t :: ts.takeWhile (·.start < stop)) (ts.dropWhile (·.start < stop)) s <;> rfl

section
variable {M : Type} [Register M]

private theorem readEntityAt_cases (src : List Char) (first : Lexeme) :
    (∃ enter : List Lexeme → Read (DraftOf M) Unit,
      readEntityAt src first = restOfLine src first.start >>= enter ∧
      readEntity src first = restOfLine src first.start >>= fun line => enter (first :: line)) ∨
    (readEntityAt src first : Read (DraftOf M) Unit) = skip >>= fun _ => readEntity src first := by
  unfold readEntityAt
  split
  · rename_i token
    refine .inl ⟨fun line => readSpan src line >>= fun text => alter (·.addAttributeGroup text),
      rfl, ?_⟩
    simp only [readEntity, token]
  · rename_i token
    refine .inl ⟨fun line => readSpan src line >>= fun text => alter (·.addComdat text), rfl, ?_⟩
    simp only [readEntity, token]
  · exact .inr rfl

private theorem readEntityAt_eq {t : Lexeme} (inLine : InLine src t) (s : DraftOf M) :
    readEntityAt src t (t :: ts) s = (skip >>= fun _ => readEntity src t) (t :: ts) s := by
  rcases readEntityAt_cases (M := M) src t with ⟨enter, here, behind⟩ | same
  · rw [here, behind]
    exact restOfLine_first inLine enter s
  · rw [same]

/-- To decide by a token and then take it comes to the same as to take it first. -/
theorem entityRound_eq (inLine : ∀ t ∈ ts.head?, InLine src t) (s : DraftOf M) :
    entityRound src () ts s =
      whileRound (fun _ t _ => some t) (fun t _ => readEntity src t) () ts s := by
  rw [entityRound, peek_bind]
  cases ts with
  | nil => rfl
  | cons t ts =>
    rw [whileRound_go rfl, ← bind_assoc]
    exact bind_congr_first (readEntityAt_eq (inLine t rfl) s)

end

theorem Source.inLine (source : Source src all) : ∀ t ∈ all, InLine src t := by
  intro t mem
  obtain ⟨front, more, rfl⟩ := List.append_of_mem mem
  have before := Source.lt_lineEnd source.right
  obtain ⟨text, -, place, -⟩ := source.right.spelled
  obtain ⟨line, found, -⟩ := lineEnd?_of_at (place.left (a := []))
  rw [Text.lineEnd, found] at before
  exact ⟨_, found, before⟩

private theorem advances_entities {M : Type} [Register M] (inLine : ∀ t ∈ all, InLine src t) :
    Advances all (entityRound src : Unit → Read (DraftOf M) (Turn Unit))
      (fun _ => readEntities src) fun _ ts => ts = [] := by
  have advances : Advances all (entityRound (M := M) src) (fun _ => readEntities src)
      (Stops fun _ t _ => some t) := by
    apply advances_while
    intro ts suffix _ s
    apply entityRound_eq
    intro t first
    exact inLine t (suffix.subset (List.mem_of_head? first))
  apply advances.imp
  intro _ ts stop
  cases ts with
  | nil => rfl
  | cons t ts => cases stops_cons.mp stop

end

/-! What is read is counted by the rounds. -/

private theorem length_insertNode_le (node : UInt32) (text : String)
    (entries : List (UInt32 × String)) :
    (Module.insertNode node text entries).length ≤ entries.length + 1 := by
  induction entries with
  | nil => exact Nat.le_refl 1
  | cons entry entries ih =>
    unfold Module.insertNode
    split
    · exact Nat.le_refl _
    split
    · exact Nat.le_succ _
    · exact Nat.succ_le_succ ih

section
variable {src : List Char} {all ts rest : List Lexeme} {m m' : Module} {d d' : Draft}

theorem Entry.entityCount_le (entry : Entry src d d') :
    d'.module.entityCount ≤ d.module.entityCount + 1 := by
  cases entry with
  | filename | datalayout | triple | comdat | group | named =>
    simp only [Module.entityCount, Module.addComdat, Module.addAttributeGroup,
      Module.addNamedMetadata, Option.toList_some, List.length_append, List.length_singleton]
    omega
  | global _ _ ok =>
    obtain ⟨-, -, rfl⟩ := Module.addGlobal_eq_ok.mp ok
    simp only [Module.entityCount, List.length_append, List.length_singleton]
    omega
  | declaration _ _ ok | definition _ _ ok =>
    obtain ⟨-, -, rfl⟩ := Module.addFunction_eq_ok.mp ok
    simp only [Module.entityCount, List.length_append, List.length_singleton]
    omega
  | @metadata node text cut =>
    have added := length_insertNode_le node text d.module.metadata
    exact Nat.add_le_add_left added _

/-- Each entity takes a token. -/
theorem entities_count {name : String} {u : Unit} (lexed : lex src = .ok all)
    (read : Reads (readEntities src) all { module := { name } } u rest d) :
    d.module.entityCount ≤ all.length := by
  have source : Source src all := ⟨[], lexFrom_eq_ok.mp lexed⟩
  have counted := (reads_whileNext.mp read).preserves
    (P := fun _ left now => Source src left ∧ now.module.entityCount + left.length ≤ all.length) (by
      rintro _ t left now first next between after picked ⟨source, count⟩ round
      obtain rfl := Option.some.inj picked
      have added := (entity_read source round).entityCount_le
      have shorter := round.suffix.length_le
      rw [List.length_cons] at count
      exact ⟨source.suffix (round.suffix.trans (List.suffix_cons _ _)), by omega⟩)
    ⟨source, by simp [Module.entityCount]⟩
  exact Nat.le_of_add_right_le counted.2

/-- A line takes a token and adds an instruction at most. -/
theorem instructions_line {first : Lexeme} {left : List Lexeme} {current next : Nat} {s s' : Scope}
    (round : Reads (readLine m first current) left s next rest s') :
    s'.function.instructions.length + rest.length ≤
      s.function.instructions.length + (first :: left).length := by
  have shorter := round.suffix.length_le
  rw [List.length_cons]
  cases readLine_went round with
  | label => omega
  | instruction _ _ went ok =>
    have added := (Function.pushed_of_push ok).instructions.length_eq
    rw [List.length_cons, instructions_congr went.blocks] at added
    dsimp only
    omega

private theorem readSettled_read {s s' : Scope} {u : Unit}
    (read : Reads readSettled ts s u rest s') :
    s' = s := by
  obtain ⟨_, _, _, looked, last⟩ := reads_bind.mp read
  obtain ⟨rfl, rfl, rfl⟩ := reads_state.mp looked
  split at last
  · exact (reads_pure.mp last).2.2
  · exact absurd last reads_refuseAt

private theorem linesFrom_read {s s' : Scope} {current count : Nat}
    (read : Reads (linesFrom m current) ts s count rest s') :
    ∃ left, Rounds pickLine (readLine m) current ts s count left s' := by
  obtain ⟨last, left, now, lines, closing⟩ := reads_bind.mp read
  obtain ⟨closed, _, _, eaten, more⟩ := reads_bind.mp closing
  obtain ⟨-, rfl, rfl⟩ := reads_eat.mp eaten
  cases closed with
  | false =>
    obtain ⟨_, _, _, refused, -⟩ := reads_bind.mp more
    exact absurd refused reads_refuse
  | true =>
    obtain ⟨rfl, -, rfl⟩ := reads_pure.mp more
    exact ⟨left, reads_whileNext.mp lines⟩

private theorem instructions_lines {s s' : Scope} {u : Unit}
    (whole : Reads (readLines m) ts s u rest s') :
    s'.function.instructions.length ≤ s.function.instructions.length + ts.length := by
  rw [readLines_eq_linesFrom] at whole
  obtain ⟨count, _, _, lines, settled⟩ := reads_bind.mp whole
  obtain rfl := readSettled_read settled
  obtain ⟨left, rounds⟩ := linesFrom_read lines
  have counted := rounds.preserves
    (P := fun _ left now => now.function.instructions.length + left.length ≤
      s.function.instructions.length + ts.length) (by
      intro current t left now first next between after picked before round
      obtain ⟨-, rfl⟩ := pickLine_eq_some.mp picked
      exact (instructions_line round).trans before)
    (Nat.le_refl _)
  exact Nat.le_of_add_right_le counted

private theorem instructions_body {f : Function} {s' : Scope} {u : Unit} (fresh : Fresh f)
    (whole : Reads (readBody m.symbol?) ts { function := f } u rest s') :
    s'.function.instructions.length ≤ ts.length := by
  obtain ⟨-, left, ⟨front, rfl, -⟩, lines⟩ := readBody_opened fresh whole
  have counted := instructions_lines lines
  rw [fresh.instructions, List.length_nil, Nat.zero_add] at counted
  rw [List.length_append]
  omega

/-- At most `n` entities, and at most `n` instructions in any function. -/
structure Counted (n : Nat) (m : Module) : Prop where
  entities : m.entityCount ≤ n
  instructions : ∀ f ∈ m.functions, f.instructions.length ≤ n

theorem Counted.fill {b : FuncId × List Lexeme} {bodies : List (FuncId × List Lexeme)}
    (lexed : lex src = .ok all) (known : PartlyFilled src (b :: bodies) m)
    (counted : Counted all.length m) (ok : fillFunction m b = .ok m') : Counted all.length m' := by
  obtain ⟨id, body⟩ := b
  obtain ⟨f, rest, scope, found, read, rfl⟩ := fillFunction_eq_ok.mp ok
  obtain ⟨⟨brace, _, _, -, -, ⟨before, listed⟩, -⟩, g, here, headed, -⟩ :=
    known.left _ List.mem_cons_self
  obtain rfl := Option.some.inj (found.symm.trans here)
  -- a body is what is left of the same tokens behind its brace, so that it is no longer than they are
  have whole : before ++ brace :: body = all :=
    Except.ok.inj ((lexFrom_eq_ok.mpr listed).symm.trans lexed)
  have size := instructions_body headed.fresh read
  rw [← whole, List.length_append, List.length_cons] at counted ⊢
  constructor
  · have same : (m.setFunction id scope.function).entityCount = m.entityCount := by
      simp [Module.entityCount, Module.setFunction]
    exact same.le.trans counted.entities
  · intro h mem
    rcases List.mem_or_eq_of_mem_set mem with old | rfl
    · exact counted.instructions h old
    · omega

theorem Counted.run {bodies : List (FuncId × List Lexeme)} (lexed : lex src = .ok all)
    (known : PartlyFilled src bodies m) (counted : Counted all.length m)
    (ok : bodies.foldlM fillFunction m = .ok m') : Counted all.length m' := by
  induction bodies generalizing m with
  | nil =>
    cases ok
    exact counted
  | cons b bodies ih =>
    rw [List.foldlM_cons] at ok
    obtain ⟨filled, first, more⟩ := Failure.bind_eq_ok.mp ok
    exact ih (known.fill first) (counted.fill lexed known first) more

private theorem parse_counted {name text : String} (lexed : lex text.toList = .ok all)
    (ok : parse name text = .ok m) : Counted all.length m := by
  obtain ⟨ts, rest, d, lexed', read, filled⟩ := parse_eq_ok.mp ok
  obtain rfl := Except.ok.inj (lexed'.symm.trans lexed)
  have known := (entities_read lexed read).1
  refine Counted.run lexed known.partlyFilled ⟨entities_count lexed read, ?_⟩ filled
  intro f mem
  simp [Function.instructions, (known.headed f mem).fresh.blocks]

end

/-- Every round at the top level, of a body, and of the loops inside it moves the cursor on. So all
these loops end, and there are no more entities, and no more instructions in a body, than tokens. -/
theorem parse_advances (text : String) (all : List Lexeme) :
    (lex text.toList = .ok all →
      (∀ (M : Type) [Register M], Advances all
        (entityRound text.toList : Unit → Read (DraftOf M) (Turn Unit))
        (fun _ => readEntities text.toList) fun _ ts => ts = []) ∧
        ∀ name m, parse name text = .ok m → m.entityCount ≤ all.length ∧
          ∀ f ∈ m.functions, f.instructions.length ≤ all.length) ∧
    (∀ m : Module, readBody m.symbol? = (do openBlocks; let _ ← linesFrom m 0; readSettled) ∧
      Advances all (lineRound m) (linesFrom m) fun _ _ => False) ∧
    (∀ σ : Type, (skipAttributes : Read σ Unit) = whileNext pickAttribute readAttribute () ∧
      Advances all (whileRound pickAttribute readAttribute : Unit → Read σ (Turn Unit))
        (whileNext pickAttribute readAttribute) (Stops pickAttribute)) ∧
    (∀ m : Module, readArgs m.symbol? = (do
        if ← eat (.punct .rparen) then return []
        let args ← items pickComma (readArg m.symbol?) []
        if ← eat (.punct .rparen) then return args
        else unexpected (.token (.punct .comma))) ∧
      Advances all (itemRound pickComma (readArg m.symbol?))
        (items pickComma (readArg m.symbol?)) fun _ _ => False) ∧
    (∀ m : Module, readPhi m.symbol? = (do
        let ty ← readTy
        let incoming ← items pickEdge (readEdge m.symbol? ty) []
        return .phi ty incoming) ∧
      ∀ ty, Advances all (itemRound pickEdge (readEdge m.symbol? ty))
        (items pickEdge (readEdge m.symbol? ty)) fun _ _ => False) ∧
    (∀ σ : Type, (readTrailer : Read σ Trailer) = whileNext pickNote readNote {} ∧
      Advances all (whileRound pickNote readNote : Trailer → Read σ (Turn Trailer))
        (whileNext pickNote readNote) (Stops pickNote)) := by
  refine ⟨?entities, ?lines, ?attributes, ?args, ?edges, ?trailer⟩
  case entities =>
    intro lexed
    have source : Source text.toList all := ⟨[], lexFrom_eq_ok.mp lexed⟩
    refine ⟨fun _ _ => advances_entities source.inLine, ?_⟩
    intro name m ok
    have counted := parse_counted lexed ok
    exact ⟨counted.entities, counted.instructions⟩
  case lines => exact fun m => ⟨readBody_eq_lines m, advances_lines m⟩
  case attributes => exact fun _ => ⟨skipAttributes_eq, advances_while fun _ _ _ _ => rfl⟩
  case args =>
    intro m
    exact ⟨readArgs_eq m, advances_items fun _ _ _ _ _ read => readArg_shorter read⟩
  case edges =>
    intro m
    exact ⟨readPhi_eq m, fun ty => advances_items fun _ _ _ _ _ read => readEdge_shorter read⟩
  case trailer => exact fun _ => ⟨readTrailer_eq, advances_while fun _ _ _ _ => rfl⟩

/-- Two lines that are taken from their first token on, and a body. -/
def grouped : String :=
  "$c = comdat any
attributes #0 = \x7b nounwind \x7d
define void @f() \x7b
  unreachable
\x7d
"

def groupedTokens : List Lexeme := [
  ⟨.comdatRef, 0, 2⟩, ⟨.punct .equals, 3, 4⟩, ⟨.word "comdat", 5, 11⟩, ⟨.word "any", 12, 15⟩,
  ⟨.word "attributes", 16, 26⟩, ⟨.attrRef, 27, 29⟩, ⟨.punct .equals, 30, 31⟩, ⟨.punct .lbrace, 32, 33⟩,
  ⟨.word "nounwind", 34, 42⟩, ⟨.punct .rbrace, 43, 44⟩, ⟨.word "define", 45, 51⟩, ⟨.word "void", 52, 56⟩,
  ⟨.globalName "f", 57, 59⟩, ⟨.punct .lparen, 59, 60⟩, ⟨.punct .rparen, 60, 61⟩, ⟨.punct .lbrace, 62, 63⟩,
  ⟨.word "unreachable", 66, 77⟩, ⟨.punct .rbrace, 78, 79⟩]

def groupedRead : Module where
  name := "m"
  functions := [{ name := "f", ret := .void, blocks := [⟨"", [{ op := .unreachable }]⟩] }]
  comdats := ["$c = comdat any"]
  attributeGroups := ["attributes #0 = \x7b nounwind \x7d"]

theorem parse_advances_grouped : lex grouped.toList = .ok groupedTokens ∧
    parse "m" grouped = .ok groupedRead ∧
    Advances groupedTokens (entityRound grouped.toList : Unit → Read (DraftOf Registry) (Turn Unit))
      (fun _ => readEntities grouped.toList) (fun _ ts => ts = []) ∧
    groupedRead.entityCount ≤ groupedTokens.length ∧
    ∀ f ∈ groupedRead.functions, f.instructions.length ≤ groupedTokens.length := by
  have chars : grouped.toList = _ := String.toList_ofList
  have lexed : lex grouped.toList = .ok groupedTokens := by
    rw [chars]
    decide +kernel
  have read : parse "m" grouped = .ok groupedRead := by
    rw [parse_eq, chars]
    decide +kernel
  obtain ⟨advances, counted⟩ := (parse_advances grouped groupedTokens).1 lexed
  exact ⟨lexed, read, advances Registry, counted "m" groupedRead read⟩

end Listing

end BlockTally
