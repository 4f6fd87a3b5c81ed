import BlockTally.Proofs.Listing.Beyond
import BlockTally.Proofs.Listing.Extents
import BlockTally.Proofs.Listing.Paired
import BlockTally.Proofs.Listing.Skipped
import Mathlib.Data.List.Infix

/-! The blocks of a body. The first scan announces a block for each label before the closing brace, and
the lines are counted through these blocks; where no group and no node hides a label or a brace, each
block gets the instructions from its label to the next. Main statement: `readBody_sections`. -/
namespace BlockTally.Listing
open Read

/-- The tokens list the lines one after another, each instruction as it is read when those before it
are. -/
inductive Lists (m : Module) : List Lexeme → Scope → List Line → List Lexeme → Scope → Prop
  | none {ts : List Lexeme} {s : Scope} : Lists m ts s [] ts s
  | label {t : Lexeme} {ts rest : List Lexeme} {name : String} {lines : List Line} {s s' : Scope}
      (token : t.token = .label name) (more : Lists m ts s lines rest s') :
      Lists m (t :: ts) s (.label name :: lines) rest s'
  | instruction {t : Lexeme} {ts between rest : List Lexeme} {inst : Instruction} {lines : List Line}
      {s now s' : Scope} (other : ∀ name, t.token ≠ .label name)
      (read : Reads (readInstruction m.symbol? t) ts s inst between now)
      (more : Lists m between now lines rest s') :
      Lists m (t :: ts) s (.instruction inst :: lines) rest s'

/-- The second pass comes to the body of a function, when those before it are filled. -/
def ComesTo (name text : String) (id : FuncId) (body : List Lexeme) (m : Module) (f : Function) : Prop :=
  ∃ ts d earlier later, lex text.toList = .ok ts ∧
    Reads (readEntities text.toList) ts { module := { name } } () [] d ∧
    d.bodies = earlier ++ (id, body) :: later ∧ earlier.foldlM fillFunction d.module = .ok m ∧
    m.function? id = some f

/-- In a line behind `start`, with the lines before it read. -/
def PassesLines (m : Module) (start : List Lexeme) (s : Scope) (g : List Lexeme) : Prop :=
  ∃ current t left now, SomeRounds pickLine (readLine m) 0 start s current (t :: left) now ∧
    t.token ≠ .punct .rbrace ∧ (∀ name, t.token ≠ .label name) ∧ PassesInstruction m t left now g

/-- No node is written in place up to the brace that ends the body, and no group in parentheses that
is passed over in it holds a label or a closing brace. -/
structure Clear (m : Module) (f : Function) (body : List Lexeme) : Prop where
  nodes : ∀ extent after before bang brace behind, body = extent ++ after →
    closes .lbrace .rbrace 1 (extent.map (·.token)) = true →
    extent = before ++ bang :: brace :: behind → bang.token = .punct .bang →
    brace.token ≠ .punct .lbrace
  groups : ∀ start s g, Reads openBlocks body { function := f } () start s →
    PassesLines m start s g → Plain g

/-- The lines of blocks of which the first has no label. -/
def unlabelledLines : List Block → List Line
  | [] => []
  | entry :: blocks => innerLines entry blocks

def labelledLines (blocks : List Block) : List Line :=
  blocks.flatMap fun b => .label b.name :: b.insts.map .instruction

section
variable {m : Module}

private theorem labelledLines_eq (entry : Block) (blocks : List Block) :
    labelledLines (entry :: blocks) = .label entry.name :: unlabelledLines (entry :: blocks) := rfl

private theorem unlabelledLines_label {blocks : List Block} (some : blocks ≠ []) (name : String) :
    unlabelledLines (blocks ++ [({ name } : Block)]) = unlabelledLines blocks ++ [.label name] := by
  obtain ⟨entry, blocks, rfl⟩ := List.exists_cons_of_ne_nil some
  simp [unlabelledLines, innerLines]

private theorem unlabelledLines_push (front : List Block) (b : Block) (inst : Instruction) :
    unlabelledLines (front ++ [b.push inst]) = unlabelledLines (front ++ [b]) ++ [.instruction inst] := by
  cases front with
  | nil => simp [unlabelledLines, innerLines, Block.push]
  | cons entry front => simp [unlabelledLines, innerLines, Block.push]

theorem Lists.append {ts between rest : List Lexeme} {s now s' : Scope} {lines more : List Line}
    (first : Lists m ts s lines between now) (second : Lists m between now more rest s') :
    Lists m ts s (lines ++ more) rest s' := by
  induction first with
  | none => exact second
  | label token _ ih => exact .label token (ih second)
  | instruction other read _ ih => exact .instruction other read (ih second)

/-- The same tokens. -/
def Pairing.same : Pairing where
  pairs := fun ts us => us = ts
  limit := 0
  nil := id
  cons := fun same => ⟨_, _, same, rfl, rfl⟩

theorem Outlines.symm {f g : Function} (outlines : Outlines f g) : Outlines g f := by
  refine ⟨?_, outlines.names.symm⟩
  rw [outlines.same]

theorem Outlines.trans {f g h : Function} (first : Outlines f g) (second : Outlines g h) :
    Outlines f h := by
  refine ⟨?_, second.names.trans first.names⟩
  rw [second.same, first.same]

theorem SameValues.symm {s s' : Scope} (same : SameValues s s') : SameValues s' s :=
  ⟨same.function.symm, same.pending.symm⟩

/-- No node is written in place before the first closing brace. -/
def NoNode (ts : List Lexeme) : Prop :=
  ∀ before bang brace more, ts = before ++ bang :: brace :: more →
    (∀ t ∈ before, t.token ≠ .punct .rbrace) → bang.token = .punct .bang →
    brace.token ≠ .punct .lbrace

theorem NoNode.tail {t : Lexeme} {ts : List Lexeme} (none : NoNode (t :: ts))
    (other : t.token ≠ .punct .rbrace) : NoNode ts := by
  rintro before bang brace more rfl inside
  exact none (t :: before) bang brace more rfl (List.forall_mem_cons.mpr ⟨other, inside⟩)

private theorem mem_of_closes {opening closing : Punct} {toks : List Token} {n : Nat}
    (unclosed : 0 < n) (ends : closes opening closing n toks = true) : .punct closing ∈ toks := by
  induction toks generalizing n with
  | nil =>
    obtain ⟨n, rfl⟩ := Nat.exists_eq_add_of_lt unclosed
    simp [closes] at ends
  | cons t toks ih =>
    by_cases same : t = .punct closing
    · exact same ▸ List.mem_cons_self
    · obtain ⟨k, rfl⟩ := Nat.exists_eq_add_of_lt unclosed
      rw [Nat.zero_add, closes, if_neg same] at ends
      refine List.mem_cons_of_mem _ (ih ?_ ends)
      split <;> omega

/-- An extent ends with a closing brace, so that what comes before the first one is inside. -/
theorem Clear.noNode {f : Function} {extent after : List Lexeme} (clear : Clear m f (extent ++ after))
    (ends : closes .lbrace .rbrace 1 (extent.map (·.token)) = true) : NoNode (extent ++ after) := by
  intro before bang brace more whole inside isBang isBrace
  have split : extent ++ after = (before ++ [bang, brace]) ++ more := by simp [whole]
  rcases List.append_eq_append_iff.mp split with ⟨gap, front, -⟩ | ⟨gap, front, -⟩
  · obtain ⟨closing, mem, token⟩ := List.mem_map.mp (mem_of_closes Nat.one_pos ends)
    have early : closing ∈ before ++ [bang, brace] := front ▸ List.mem_append_left _ mem
    simp only [List.mem_append, List.mem_cons, List.not_mem_nil, or_false] at early
    rcases early with early | rfl | rfl
    · exact inside _ early token
    · rw [isBang] at token
      cases token
    · rw [isBrace] at token
      cases token
  · exact clear.nodes extent after before bang brace gap rfl ends (by simp [front]) isBang isBrace

/-- The lines that are read up to `left` are in the blocks up to `last`; those behind it are announced. -/
structure Sectioned (m : Module) (start : List Lexeme) (s : Scope) (title : String)
    (front : List Block) (last : Block) (done : List Lexeme) (lines : List Line) (listed : Scope)
    (current : Nat) (left : List Lexeme) (now : Scope) : Prop where
  split : start = done ++ left
  inside : ∀ t ∈ done, t.token ≠ .punct .rbrace
  lists : Lists m start s lines left listed
  same : SameValues listed now
  laid : lines = unlabelledLines (front ++ [last])
  count : current = front.length
  blocks : now.function.blocks = front ++ last :: (labels left).map fun label => { name := label.1 }
  titled : (front ++ [last]).head?.map (·.name) = some title
  names : lines.filterMap Line.name? = (done.map (·.token)).filterMap labelOf?

section
variable {start : List Lexeme} {s : Scope} {title : String} {front : List Block} {last : Block}
  {done : List Lexeme} {lines : List Line} {listed : Scope} {current : Nat} {t : Lexeme}
  {left : List Lexeme} {now : Scope}

theorem Sectioned.label {name : String}
    (sectioned : Sectioned m start s title front last done lines listed current (t :: left) now)
    (token : t.token = .label name) :
    Sectioned m start s title (front ++ [last]) { name } (done ++ [t]) (lines ++ [.label name]) listed
      (current + 1) left now where
  split := by rw [sectioned.split, List.append_assoc, List.singleton_append]
  inside := List.forall_mem_append.mpr ⟨sectioned.inside, by simp [token]⟩
  lists := sectioned.lists.append (.label token .none)
  same := sectioned.same
  laid := by rw [sectioned.laid, unlabelledLines_label (by simp)]
  count := by simp [sectioned.count]
  blocks := by
    rw [sectioned.blocks, labels_label token]
    simp
  titled := by
    have titled := sectioned.titled
    rw [Option.map_eq_some_iff] at titled ⊢
    obtain ⟨entry, first, same⟩ := titled
    exact ⟨entry, by rw [List.head?_append, first]; rfl, same⟩
  names := by simp [sectioned.names, token, Line.name?, labelOf?]

private theorem not_rbrace_of_inline {u : Token} (inline : isInline u = true) :
    u ≠ .punct .rbrace := by
  rintro rfl
  cases inline

private theorem labelOf?_inline {u : Token} (inline : isInline u = true) : labelOf? u = none := by
  cases u <;> first | rfl | cases inline

/-- What is taken between labels announces nothing. -/
theorem labels_inline {took : List Lexeme} (inline : ∀ t ∈ took, isInline t.token = true)
    (left : List Lexeme) : labels (took ++ left) = labels left := by
  have before : ∀ t ∈ took, (t.token != .punct .rbrace) = true := fun t mem =>
    bne_iff_ne.mpr (not_rbrace_of_inline (inline t mem))
  rw [labels, List.takeWhile_append_of_pos before, List.filterMap_append]
  refine (congrArg (· ++ _) (List.filterMap_eq_nil_iff.mpr fun t mem => ?_)).trans (List.nil_append _)
  have known := inline t mem
  split
  · rename_i same
    rw [same] at known
    cases known
  · rfl

theorem Outlines.push {f g : Function} {id : BlockId} {inst : Instruction}
    (pushed : f.push id inst = some g) : Outlines f g := by
  refine ⟨?_, (Function.pushed_of_push pushed).labels⟩
  obtain ⟨b, -, rfl⟩ := Option.map_eq_some_iff.mp pushed
  rfl

private theorem push_last {f g : Function} {front more : List Block} {last : Block}
    {inst : Instruction}
    (blocks : f.blocks = front ++ last :: more) (pushed : f.push ⟨front.length⟩ inst = some g) :
    g.blocks = front ++ last.push inst :: more := by
  obtain ⟨b, here, rfl⟩ := Option.map_eq_some_iff.mp pushed
  rw [Function.block?, blocks, List.getElem?_append_right (Nat.le_refl _), Nat.sub_self] at here
  obtain rfl : last = b := Option.some.inj here
  rw [Function.setBlock, blocks]
  simp

theorem Sectioned.instruction {inst : Instruction} {took rest : List Lexeme} {s₁ : Scope}
    {g : Function}
    (sectioned : Sectioned m start s title front last done lines listed current (t :: left) now)
    (other : ∀ name, t.token ≠ .label name) (unclosed : t.token ≠ .punct .rbrace)
    (read : Reads (readInstruction m.symbol? t) left now inst rest s₁) (split : left = took ++ rest)
    (inline : ∀ u ∈ took, isInline u.token = true)
    (pushed : s₁.function.push ⟨current⟩ inst = some g) :
    ∃ listed', Sectioned m start s title front (last.push inst) (done ++ t :: took)
      (lines ++ [.instruction inst]) listed' current rest { s₁ with function := g } := by
  obtain ⟨_, left', listed', read', rfl, pairs, same⟩ :=
    ((alike_readInstruction (P := .same) m (rfl : t.token = t.token)).follows left left now listed rfl
      sectioned.same.symm).reads inst rest s₁ read (Nat.zero_le _)
  obtain rfl : left' = rest := pairs
  have all : ∀ u ∈ t :: took, isInline u.token = true := by
    refine List.forall_mem_cons.mpr ⟨?_, inline⟩
    unfold isInline
    split
    · exact absurd ‹_› (other _)
    · exact absurd ‹_› unclosed
    · rfl
  have ahead : labels (t :: left) = labels left' := by
    rw [split, ← List.cons_append, labels_inline all]
  have blocks : s₁.function.blocks =
      front ++ last :: (labels left').map fun label => { name := label.1 } := by
    rw [(readInstruction_went read).2.blocks, sectioned.blocks, ahead]
  refine ⟨listed', ?_⟩
  exact {
    split := by rw [sectioned.split, split, List.append_assoc, List.cons_append]
    inside := List.forall_mem_append.mpr
      ⟨sectioned.inside, fun u mem => not_rbrace_of_inline (all u mem)⟩
    lists := sectioned.lists.append (.instruction other read' .none)
    same := ⟨same.symm.function.trans (.push pushed), same.symm.pending⟩
    laid := by rw [sectioned.laid, unlabelledLines_push]
    count := sectioned.count
    blocks := push_last blocks (sectioned.count ▸ pushed)
    titled := by
      have titled := sectioned.titled
      cases front <;> exact titled
    names := by
      have none : ((t :: took).map (·.token)).filterMap labelOf? = [] := by
        refine List.filterMap_eq_nil_iff.mpr fun u mem => ?_
        obtain ⟨v, here, rfl⟩ := List.mem_map.mp mem
        exact labelOf?_inline (all v here)
      rw [List.filterMap_append, List.map_append, List.filterMap_append, none, sectioned.names]
      rfl }

/-- The groups that the lines pass over are plain, and no node is written in place. -/
structure Uncovered (m : Module) (start : List Lexeme) (s : Scope) : Prop where
  nodes : NoNode start
  groups : ∀ g, PassesLines m start s g → Plain g

/-- What an instruction takes hides no line. -/
theorem Sectioned.inline {s₀ s₁ : Scope} {inst : Instruction} {took rest : List Lexeme}
    (uncovered : Uncovered m start s₀)
    (rounds : SomeRounds pickLine (readLine m) 0 start s₀ current (t :: left) now)
    (sectioned : Sectioned m start s title front last done lines listed current (t :: left) now)
    (other : ∀ name, t.token ≠ .label name) (unclosed : t.token ≠ .punct .rbrace)
    (read : Reads (readInstruction m.symbol? t) left now inst rest s₁) (split : left = took ++ rest) :
    ∀ u ∈ took, isInline u.token = true := by
  rcases tidy_readInstruction m t left now inst took rest s₁ split read with
    (inline | ⟨before, bang, brace, after, rfl, isBang, isBrace, clear⟩) | ⟨g, passes, hidden⟩
  · exact inline
  · have whole : start = (done ++ t :: before) ++ bang :: brace :: (after ++ rest) := by
      rw [sectioned.split, split]
      simp
    refine absurd isBrace (uncovered.nodes _ bang brace _ whole ?_ isBang)
    refine List.forall_mem_append.mpr ⟨sectioned.inside, List.forall_mem_cons.mpr ⟨unclosed, ?_⟩⟩
    exact fun u mem => not_rbrace_of_inline (clear u mem)
  · exact absurd (uncovered.groups g ⟨current, t, left, now, rounds, unclosed, other, passes⟩) hidden

theorem Sectioned.rounds {s₀ : Scope} (uncovered : Uncovered m start s₀)
    (first : Sectioned m start s title [] { name := title } [] [] s 0 start s₀)
    (rounds : SomeRounds pickLine (readLine m) 0 start s₀ current left now) :
    ∃ front last done lines listed,
      Sectioned m start s title front last done lines listed current left now := by
  refine (rounds.preserves (P := fun current left now =>
    SomeRounds pickLine (readLine m) 0 start s₀ current left now ∧
    ∃ front last done lines listed, Sectioned m start s title front last done lines listed current left
      now) ?_ ⟨.none, _, _, _, _, _, first⟩).2
  rintro current _ left now t next rest s' picked ⟨sofar, front, last, done, lines, listed, sectioned⟩
    once
  obtain ⟨unclosed, rfl⟩ := pickLine_eq_some.mp picked
  refine ⟨sofar.snoc picked once, ?_⟩
  rcases readLine_cases m t current with ⟨⟨name, token⟩, same⟩ | ⟨other, same⟩
  · rw [same] at once
    obtain ⟨rfl, rfl, rfl⟩ := reads_pure.mp once
    exact ⟨_, _, _, _, _, sectioned.label token⟩
  · rw [same] at once
    simp only [readPushed, reads_bind, reads_state] at once
    obtain ⟨inst, rest, s₁, read, _, _, _, ⟨rfl, rfl, rfl⟩, last⟩ := once
    obtain ⟨took, rfl⟩ := read.suffix
    have inline := sectioned.inline uncovered sofar other unclosed read rfl
    split at last
    · exact absurd last reads_outOfRange
    · rename_i pushed
      simp only [reads_bind, reads_update, reads_pure] at last
      obtain ⟨_, _, _, ⟨rfl, rfl⟩, rfl, rfl, rfl⟩ := last
      obtain ⟨listed', sectioned'⟩ :=
        sectioned.instruction other unclosed read rfl inline pushed
      exact ⟨_, _, _, _, _, sectioned'⟩

/-- The blocks of a line are there. -/
theorem Sectioned.fillBlocks {s₀ : Scope} (uncovered : Uncovered m start s₀)
    (first : Sectioned m start s title [] { name := title } [] [] s 0 start s₀) :
    fillBlocks m.symbol? start s₀ ≠ .error .outOfRange := by
  intro failed
  rw [fillBlocks_eq] at failed
  obtain ⟨current, t, left, now, _, rounds, picked, here⟩ := whileNext_error failed
  obtain ⟨-, rfl⟩ := pickLine_eq_some.mp picked
  obtain ⟨front, last, done, lines, listed, sectioned⟩ := first.rounds uncovered rounds
  obtain ⟨inst, rest, after, went, none⟩ := readLine_outOfRange here
  have beyond := push_eq_none none
  rw [went.blocks, sectioned.blocks, sectioned.count, List.length_append, List.length_cons] at beyond
  omega

/-- All lines up to the closing brace are in the blocks. -/
theorem Sectioned.readLines {s₀ scope : Scope} {rest : List Lexeme}
    (uncovered : Uncovered m start s₀)
    (first : Sectioned m start s title [] { name := title } [] [] s 0 start s₀)
    (read : Reads (readLines m) start s₀ () rest scope) :
    ∃ inner closing lines listed, start = inner ++ closing :: rest ∧
      closing.token = .punct .rbrace ∧ (∀ t ∈ inner, t.token ≠ .punct .rbrace) ∧
      Lists m start s lines (closing :: rest) listed ∧
      lines.filterMap Line.name? = (inner.map (·.token)).filterMap labelOf? ∧
      lines = unlabelledLines scope.function.blocks ∧
      scope.function.blocks.head?.map (·.name) = some title := by
  rw [readLines_eq] at read
  obtain ⟨current, left, now, filled, more⟩ := reads_bind.mp read
  rw [fillBlocks_eq] at filled
  obtain ⟨front, last, done, lines, listed, sectioned⟩ :=
    first.rounds uncovered (reads_whileNext.mp filled).partly
  obtain ⟨closed, _, _, eaten, settled⟩ := reads_bind.mp more
  cases closed with
  | false =>
    obtain ⟨_, _, _, refused, -⟩ := reads_bind.mp settled
    exact absurd refused reads_refuse
  | true =>
    obtain ⟨closing, rfl, brace, rfl⟩ := reads_eaten eaten
    simp only [Bool.not_true, Bool.false_eq_true, if_false, readSettled, reads_bind, reads_state]
      at settled
    obtain ⟨_, _, _, ⟨rfl, rfl, rfl⟩, ends⟩ := settled
    split at ends
    · obtain ⟨-, rfl, rfl⟩ := reads_pure.mp ends
      have blocks := sectioned.blocks
      have none : labels (closing :: rest) = [] := by simp [labels, brace]
      rw [none, List.map_nil] at blocks
      refine ⟨done, closing, lines, listed, sectioned.split, brace, sectioned.inside, sectioned.lists,
        sectioned.names, ?_, ?_⟩
      · rw [sectioned.laid, blocks]
      · rw [blocks]
        exact sectioned.titled
    · exact absurd ends reads_refuseAt

/-- When the blocks are announced, nothing is in them. -/
theorem Sectioned.opened {f : Function} (fresh : Fresh f) (title : String) (ts : List Lexeme) :
    Sectioned m ts { function := withBlocks f (title :: (labels ts).map (·.1)) } title []
      { name := title } [] [] { function := withBlocks f (title :: (labels ts).map (·.1)) } 0 ts
      { function := withBlocks f (title :: (labels ts).map (·.1)) } where
  split := rfl
  inside := List.forall_mem_nil _
  lists := .none
  same := ⟨.refl _, rfl⟩
  laid := rfl
  count := rfl
  blocks := by simp [withBlocks, fresh.blocks, Function.comp_def]
  titled := rfl
  names := rfl

theorem Sectioned.readLines_safe {s₀ : Scope} (uncovered : Uncovered m start s₀)
    (first : Sectioned m start s title [] { name := title } [] [] s 0 start s₀) :
    Listing.readLines m start s₀ ≠ .error .outOfRange := by
  intro failed
  rw [readLines_eq] at failed
  rcases bind_error failed with here | ⟨count, rest, now, -, last⟩
  · exact first.fillBlocks uncovered here
  · exact absurd last (Safe.inside _ _)

end

section
variable {f : Function} {body left : List Lexeme} {scope : Scope}

/-- The lines of a body are read with all blocks announced. -/
theorem openBlocks_read {now : Scope} (fresh : Fresh f)
    (opened : Reads openBlocks body { function := f } () left now) :
    (∃ label name, body = label :: left ∧ label.token = .label name ∧
      now = { function := withBlocks f (name :: (labels left).map (·.1)) }) ∨
    (∀ name, body.head?.map Lexeme.token ≠ some (.label name)) ∧ left = body ∧
      now = { function := withBlocks f ("" :: (labels body).map (·.1)) } := by
  obtain ⟨next, _, _, peeked, read⟩ := reads_bind.mp opened
  obtain ⟨rfl, rfl, rfl⟩ := reads_peekToken.mp peeked
  split at read
  · rename_i name next
    simp only [reads_bind, reads_ahead, reads_skip] at read
    obtain ⟨_, _, _, ⟨rfl, rfl, rfl⟩, _, _, _, added, rfl, rfl⟩ := read
    obtain ⟨-, rfl, rfl⟩ := addLabels_adds added (by simp [fresh.blocks])
    obtain ⟨label, first, token⟩ := Option.map_eq_some_iff.mp next
    obtain ⟨behind, rfl⟩ := List.head?_eq_some_iff.mp first
    exact .inl ⟨label, name, rfl, token, by rw [labels_label token]; rfl⟩
  · rename_i other
    simp only [reads_bind, reads_update, reads_ahead] at read
    obtain ⟨_, _, _, ⟨rfl, rfl⟩, _, _, _, ⟨rfl, rfl, rfl⟩, added⟩ := read
    obtain ⟨-, rfl, rfl⟩ := addLabels_adds added
      (nodup_addBlock (by simp [fresh.blocks]) (by simp [fresh.blocks]))
    exact .inr ⟨other, rfl, by rw [withBlocks_cons]⟩

/-- The blocks that come of a body stand to its lines as the labels between these say. -/
def Sections (m : Module) (f : Function) (body left : List Lexeme) (scope : Scope) : Prop :=
  ∃ inner closing lines listed, body = inner ++ closing :: left ∧ closing.token = .punct .rbrace ∧
    (∀ t ∈ inner, t.token ≠ .punct .rbrace) ∧
    Lists m body { function := withBlocks f (blockNames body) } lines (closing :: left) listed ∧
    lines.filterMap Line.name? = (inner.map (·.token)).filterMap labelOf? ∧
    ((∃ name, body.head?.map Lexeme.token = some (.label name)) ∧
        lines = labelledLines scope.function.blocks ∨
      (∀ name, body.head?.map Lexeme.token ≠ some (.label name)) ∧ ∃ entry blocks,
        scope.function.blocks = entry :: blocks ∧ entry.name = "" ∧ lines = innerLines entry blocks)

private theorem openBlocks_sections {start : List Lexeme} {now : Scope} (fresh : Fresh f)
    (opened : Reads openBlocks body { function := f } () start now)
    (uncovered : Uncovered m start now) :
    readLines m start now ≠ .error .outOfRange ∧
    ∀ rest scope, Reads (readLines m) start now () rest scope → Sections m f body rest scope := by
  rcases openBlocks_read fresh opened with ⟨label, name, rfl, token, rfl⟩ | ⟨other, rfl, rfl⟩
  · have entered := Sectioned.opened (m := m) fresh name start
    refine ⟨entered.readLines_safe uncovered, fun rest scope read => ?_⟩
    obtain ⟨inner, closing, lines, listed, rfl, brace, inside, lists, names, laid, titled⟩ :=
      entered.readLines uncovered read
    have next : (label :: (inner ++ closing :: rest)).head?.map Lexeme.token = some (.label name) :=
      congrArg some token
    have known : blockNames (label :: (inner ++ closing :: rest)) =
        name :: (labels (inner ++ closing :: rest)).map (·.1) := by
      rw [blockNames_label next, labels_label token]
      rfl
    refine ⟨label :: inner, closing, .label name :: lines, listed, rfl, brace, ?_, ?_, ?_, .inl ⟨?_, ?_⟩⟩
    · exact List.forall_mem_cons.mpr ⟨by simp [token], inside⟩
    · rw [known]
      exact .label token lists
    · rw [List.map_cons, List.filterMap_cons_some (by rw [token]; rfl : labelOf? label.token = some name),
        List.filterMap_cons_some (by rfl : Line.name? (.label name) = some name), names]
    · exact ⟨name, next⟩
    · obtain ⟨entry, first, rfl⟩ := Option.map_eq_some_iff.mp titled
      obtain ⟨blocks, same⟩ := List.head?_eq_some_iff.mp first
      rw [laid, same, labelledLines_eq]
  · have entered := Sectioned.opened (m := m) fresh "" start
    refine ⟨entered.readLines_safe uncovered, fun rest scope read => ?_⟩
    obtain ⟨inner, closing, lines, listed, whole, brace, inside, lists, names, laid, titled⟩ :=
      entered.readLines uncovered read
    refine ⟨inner, closing, lines, listed, whole, brace, inside, ?_, names, .inr ⟨other, ?_⟩⟩
    · rw [blockNames_entry other]
      exact lists
    · obtain ⟨entry, first, title⟩ := Option.map_eq_some_iff.mp titled
      obtain ⟨blocks, same⟩ := List.head?_eq_some_iff.mp first
      rw [same] at laid
      exact ⟨entry, blocks, same, title, laid⟩

/-- Reading a body never pushes into a block that is not there, as long as no node is written in place
in it and no group hides a label or a closing brace. When it succeeds, the blocks hold the lines up to
the first closing brace: those before the first label are in an entry block without a name, which is
there exactly when the body does not begin with a label, and each label has a block of its own with
the instructions up to the next label. -/
theorem readBody_sections {name text : String} {id : FuncId} (comes : ComesTo name text id body m f)
    (clear : Clear m f body) :
    readBody m.symbol? body { function := f } ≠ .error .outOfRange ∧
    ∀ left scope, Reads (readBody m.symbol?) body { function := f } () left scope →
      Sections m f body left scope ∧ (scope.function.blocks.map (·.name)).Nodup ∧
      scope.function.blocks.map (·.name) = blockNames body := by
  obtain ⟨ts, d, earlier, later, lexed, entities, split, filled, found⟩ := comes
  obtain ⟨known, -⟩ := entities_read lexed entities
  have inside : (id, body) ∈ d.bodies := by simp [split]
  obtain ⟨⟨-, extent, after, rfl, -, -, ends⟩, -⟩ := known.defined _ inside
  have fresh := fresh_of_earlier known split filled found
  have nodes := clear.noNode ends
  have uncovered : ∀ start now, Reads openBlocks (extent ++ after) { function := f } () start now →
      Uncovered m start now := by
    refine fun start now opened => ⟨?_, fun g => clear.groups start now g opened⟩
    rcases openBlocks_read fresh opened with ⟨label, name, same, token, -⟩ | ⟨-, rfl, -⟩
    · rw [same] at nodes
      exact nodes.tail (by simp [token])
    · exact nodes
  rw [readBody_eq_open]
  constructor
  · intro failed
    rcases bind_error failed with here | ⟨_, start, now, opened, lines⟩
    · exact absurd here (Safe.inside _ _)
    · exact (openBlocks_sections fresh opened (uncovered start now opened)).1 lines
  · intro left scope read
    obtain ⟨distinct, result, -⟩ := readBody_filled fresh (readBody_eq_open m ▸ read)
    obtain ⟨_, start, now, opened, lines⟩ := reads_bind.mp read
    exact ⟨(openBlocks_sections fresh opened (uncovered start now opened)).2 left scope lines,
      result.labels ▸ distinct, result.labels⟩

end

end

/-! A body of three blocks, in which the types of a call stand in a group. -/

theorem PassesAttributes.suffix {ts g : List Lexeme} {s : Scope} (passes : PassesAttributes ts s g) :
    g <:+ ts := by
  obtain ⟨t, left, now, text, after, rounds, -, number, -⟩ := passes
  exact (number.suffix.trans (List.suffix_cons t left)).trans rounds.suffix

theorem PassesArg.suffix {ts g : List Lexeme} {s : Scope} (passes : PassesArg ts s g) : g <:+ ts := by
  obtain ⟨ty, left, now, type, inner⟩ := passes
  exact inner.suffix.trans type.suffix

theorem PassesArgs.suffix {m : Module} {ts g : List Lexeme} {s : Scope} (passes : PassesArgs m ts s g) :
    g <:+ ts := by
  cases passes with
  | first inner => exact inner.suffix
  | later first rounds _ inner =>
    exact ((inner.suffix.trans (List.suffix_cons _ _)).trans rounds.suffix).trans first.suffix

theorem PassesCallSite.suffix {m : Module} {ts g : List Lexeme} {s : Scope}
    (passes : PassesCallSite m ts s g) : g <:+ ts := by
  cases passes with
  | attributes inner => exact inner.suffix
  | types attributes type _ => exact type.suffix.trans attributes.suffix
  | args attributes type types called opens inner =>
    exact inner.suffix.trans (opens.suffix.trans (called.suffix.trans (types.suffix.trans
      (type.suffix.trans attributes.suffix))))

theorem PassesLines.suffix {m : Module} {ts g : List Lexeme} {s : Scope} (passes : PassesLines m ts s g) :
    g <:+ ts := by
  obtain ⟨current, t, left, now, rounds, -, -, result, text, behind, now', opcode, rest, _, started,
    named, -, inner⟩ := passes
  exact (inner.suffix.trans (named.suffix.trans (started.suffix.trans (List.suffix_cons t left)))).trans
    rounds.suffix

/-- Whether a group of tokens is plain can be computed. -/
def isPlainGroup : List Lexeme → Bool
  | [] => true
  | _ :: behind => match afterGroup .lparen .rparen 1 behind with
    | none => true
    | some rest => (behind.take (behind.length - rest.val.length)).all (isInline ·.token)

private theorem plain_of_isPlainGroup {g : List Lexeme} (plain : isPlainGroup g = true) :
    Plain g := by
  rintro t inside after rfl ends
  obtain ⟨left, found, same⟩ := Option.map_eq_some_iff.mp
    (afterGroup_eq_some.mpr ⟨inside, rfl, ends⟩ :
      (afterGroup .lparen .rparen 1 (inside ++ after)).map Subtype.val = some after)
  simpa [isPlainGroup, found, same] using plain

def branching : String :=
  "define void @f() \x7b
  br label %a
a:
  call void () @f()
  br label %b
b:
  ret void
\x7d
"

def branchingTokens : List Lexeme :=
  [⟨.word "define", 0, 6⟩, ⟨.word "void", 7, 11⟩, ⟨.globalName "f", 12, 14⟩,
   ⟨.punct .lparen, 14, 15⟩, ⟨.punct .rparen, 15, 16⟩, ⟨.punct .lbrace, 17, 18⟩,
   ⟨.word "br", 21, 23⟩, ⟨.word "label", 24, 29⟩, ⟨.localName "a", 30, 32⟩,
   ⟨.label "a", 33, 35⟩,
   ⟨.word "call", 38, 42⟩, ⟨.word "void", 43, 47⟩, ⟨.punct .lparen, 48, 49⟩,
   ⟨.punct .rparen, 49, 50⟩, ⟨.globalName "f", 51, 53⟩, ⟨.punct .lparen, 53, 54⟩,
   ⟨.punct .rparen, 54, 55⟩,
   ⟨.word "br", 58, 60⟩, ⟨.word "label", 61, 66⟩, ⟨.localName "b", 67, 69⟩,
   ⟨.label "b", 70, 72⟩,
   ⟨.word "ret", 75, 78⟩, ⟨.word "void", 79, 83⟩, ⟨.punct .rbrace, 84, 85⟩]

def branchingFilled : Function := { crossedHead with
  blocks := [⟨"", [{ op := .br ⟨1⟩ }]⟩,
    ⟨"a", [{ op := .call ⟨.void, .function ⟨0⟩, []⟩ }, { op := .br ⟨2⟩ }]⟩,
    ⟨"b", [{ op := .ret .void none }]⟩] }

private theorem branching_clear (m : Module) (f : Function) :
    Clear m f (branchingTokens.drop 6) := by
  have marks : ∀ t ∈ branchingTokens.drop 6, t.token ≠ .punct .bang := by decide
  have groups : ∀ g ∈ (branchingTokens.drop 6).tails, isPlainGroup g = true := by decide
  refine ⟨?_, fun start s g opened passes => plain_of_isPlainGroup (groups g ?_)⟩
  case refine_2 => exact (List.mem_tails _ _).mpr (passes.suffix.trans opened.suffix)
  rintro extent after before bang brace behind whole - rfl isBang
  exact absurd isBang (marks bang (by rw [whole]; simp))

theorem readBody_sections_branching :
    ComesTo "m" branching ⟨0⟩ (branchingTokens.drop 6) { name := "m", functions := [crossedHead] }
      crossedHead ∧
    Clear { name := "m", functions := [crossedHead] } crossedHead (branchingTokens.drop 6) ∧
    Sections { name := "m", functions := [crossedHead] } crossedHead (branchingTokens.drop 6) []
      { function := branchingFilled } ∧
    branchingFilled.blocks.map (·.name) = blockNames (branchingTokens.drop 6) := by
  have chars : branching.toList = _ := String.toList_ofList
  have lexed : lex branching.toList = .ok branchingTokens := by
    rw [chars]
    decide +kernel
  have entities : Reads (readEntities branching.toList) branchingTokens { module := { name := "m" } }
      () [] { module := { name := "m", functions := [crossedHead] },
              bodies := [(⟨0⟩, branchingTokens.drop 6)] } := by
    rw [chars]
    exact ⟨List.nil_suffix, by decide +kernel⟩
  have comes : ComesTo "m" branching ⟨0⟩ (branchingTokens.drop 6)
      { name := "m", functions := [crossedHead] } crossedHead :=
    ⟨_, _, [], [], lexed, entities, rfl, rfl, rfl⟩
  have reads : Reads (readBody (Module.symbol? { name := "m", functions := [crossedHead] }))
      (branchingTokens.drop 6) { function := crossedHead } () [] { function := branchingFilled } :=
    ⟨List.nil_suffix, by decide +kernel⟩
  obtain ⟨-, each⟩ := readBody_sections comes (branching_clear _ _)
  obtain ⟨sections, -, names⟩ := each [] _ reads
  exact ⟨comes, branching_clear _ _, sections, names⟩

end BlockTally.Listing
