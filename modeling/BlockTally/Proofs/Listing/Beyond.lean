import BlockTally.Proofs.Listing.Registered
import BlockTally.Proofs.Listing.Turns
import BlockTally.Proofs.Listing.Within

/-! When reading goes beyond a table. The blocks of a function are announced by the labels before the
first closing brace of its body, and only a label behind one can lead to a block that is not there. Main
statements: `readBody_outOfRange`, `fillFunctions_outOfRange`. -/
namespace BlockTally.Listing
open Read Text

/-- A label behind a closing brace that belongs to a group. -/
def LabelBehind (ts : List Lexeme) : Prop :=
  ∃ inner label after name, ts = inner ++ label :: after ∧ Passed inner ∧
    (∃ t ∈ inner, t.token = .punct .rbrace) ∧ label.token = .label name

section
variable {m : Module} {f : Function} {names : List String} {ts left rest : List Lexeme}
  {s s' : Scope} {current next : Nat}

theorem LabelBehind.append (behind : LabelBehind ts) (more : List Lexeme) :
    LabelBehind (ts ++ more) := by
  obtain ⟨inner, label, after, name, rfl, known⟩ := behind
  exact ⟨inner, label, after ++ more, name, by simp, known⟩

theorem labels_label {t : Lexeme} {name : String} (token : t.token = .label name)
    (left : List Lexeme) : labels (t :: left) = (name, t.start) :: labels left := by
  simp [labels, token]

/-- What is passed over before a closing brace announces nothing that is not counted. -/
theorem length_labels_append {front : List Lexeme} (inside : ∀ t ∈ front, t.token ≠ .punct .rbrace)
    (left : List Lexeme) : (labels left).length ≤ (labels (front ++ left)).length := by
  have passes : ∀ t ∈ front, (t.token != .punct .rbrace) = true := by simpa using inside
  rw [labels, labels, List.takeWhile_append_of_pos passes, List.filterMap_append, List.length_append]
  exact Nat.le_add_left _ _

/-- The labels that are left lead to blocks that are there. Behind a closing brace that holds of the
block that is being filled, until a label follows. -/
def Announced (blocks : Nat) (front left : List Lexeme) (current : Nat) : Prop :=
  current + (labels left).length < blocks ∨
    (∃ t ∈ front, t.token = .punct .rbrace) ∧ current < blocks ∨ LabelBehind front

theorem Announced.line {blocks : Nat} {first : Lexeme} {front run : List Lexeme}
    (announced : Announced blocks front (first :: left) current) (passed : Passed front)
    (line : LineWent m first left current s next rest s') (split : first :: left = run ++ rest) :
    Announced blocks (front ++ run) rest next := by
  cases line with
  | @label name token =>
    obtain rfl : run = [first] := List.append_cancel_right (split.symm : _ = [first] ++ left)
    rcases announced with ahead | ⟨⟨t, mem, brace⟩, -⟩ | behind
    · rw [labels_label token, List.length_cons] at ahead
      exact .inl (by omega)
    · exact .inr (.inr ⟨front, first, [], name, rfl, passed, ⟨t, mem, brace⟩, token⟩)
    · exact .inr (.inr (behind.append _))
  | instruction =>
    rcases announced with ahead | ⟨⟨t, mem, brace⟩, inside⟩ | behind
    · by_cases braced : ∃ t ∈ run, t.token = .punct .rbrace
      · obtain ⟨t, mem, brace⟩ := braced
        exact .inr (.inl ⟨⟨t, List.mem_append_right _ mem, brace⟩, by omega⟩)
      · have fewer := length_labels_append (by simpa using braced) rest
        rw [← split] at fewer
        exact .inl (by omega)
    · exact .inr (.inl ⟨⟨t, List.mem_append_left _ mem, brace⟩, inside⟩)
    · exact .inr (.inr (behind.append _))

/-- An instruction only goes beyond a table when its block is not there. -/
theorem readLine_outOfRange {first : Lexeme}
    (failed : readLine m first current left s = .error .outOfRange) :
    ∃ inst rest s', InstructionWent m first left s inst rest s' ∧
      s'.function.push ⟨current⟩ inst = none := by
  rcases readLine_cases m first current with ⟨-, same⟩ | ⟨-, same⟩
  · rw [same] at failed
    cases failed
  · rw [same] at failed
    rcases bind_error failed with here | ⟨inst, rest, s', read, pushing⟩
    · exact absurd here (Safe.inside _ _)
    · refine ⟨inst, rest, s', (readInstruction_went read).2, ?_⟩
      rcases bind_error pushing with here | ⟨now, _, _, state, last⟩
      · exact absurd here (Safe.inside _ _)
      · obtain ⟨same, -, -⟩ := reads_state.mp state
        rw [same] at last
        cases pushed : s'.function.push ⟨current⟩ inst with
        | none => rfl
        | some g =>
          rw [pushed] at last
          exact absurd last (Safe.inside _ _)

theorem push_eq_none {inst : Instruction} (none : f.push ⟨current⟩ inst = none) :
    f.blocks.length ≤ current := by
  rw [Function.push, Option.map_eq_none_iff, Function.block?, List.getElem?_eq_none_iff] at none
  exact none

/-- The lines of a body lead to an instruction whose block the function does not have. -/
def StopsAtPush (m : Module) (left : List Lexeme) (s : Scope) : Prop :=
  ∃ current first later now inst rest after,
    SomeRounds pickLine (readLine m) 0 left s current (first :: later) now ∧
      InstructionWent m first later now inst rest after ∧ after.function.push ⟨current⟩ inst = none

/-- From a state of a body, in which all blocks are announced. -/
theorem fillBlocks_outOfRange {front : List Lexeme} (filled : Filled m f names (front ++ left) s)
    (passed : Passed front) (announced : Announced names.length front left 0)
    (failed : fillBlocks m.symbol? left s = .error .outOfRange) :
    LabelBehind (front ++ left) ∧ StopsAtPush m left s := by
  rw [fillBlocks_eq] at failed
  obtain ⟨current, t, behind, now, first, rounds, picked, here⟩ := whileNext_error failed
  obtain ⟨-, rfl⟩ := pickLine_eq_some.mp picked
  obtain ⟨inst, rest, after, went, none⟩ := readLine_outOfRange here
  refine ⟨?_, current, first, behind, now, inst, rest, after, rounds, went, none⟩
  obtain ⟨filled, done, whole, passed, announced⟩ := rounds.preserves
    (P := fun current later now => Filled m f names (front ++ left) now ∧ ∃ done,
      front ++ left = done ++ later ∧ Passed done ∧ Announced names.length done later current) (by
        rintro current t later now first next between after picked
          ⟨filled, done, whole, passed, announced⟩ round
        obtain ⟨-, rfl⟩ := pickLine_eq_some.mp picked
        have line := readLine_went round
        obtain ⟨run, split, more⟩ := line.passes
        refine ⟨(filled.line ⟨done, whole, passed⟩ line).1, done ++ run, ?_, passed.append more,
          announced.line passed line split⟩
        rw [whole, split, List.append_assoc])
    ⟨filled, front, rfl, passed, announced⟩
  have size : after.function.blocks.length = names.length := by
    rw [went.blocks, ← filled.labels, List.length_map]
  have beyond := push_eq_none none
  rcases announced with ahead | ⟨-, inside⟩ | found
  · omega
  · omega
  · exact whole ▸ found.append _

/-- The end of a body. -/
def readSettled : Read Scope Unit := do
  match (← state).pending.head? with
  | none => return ()
  | some (name, start) => refuseAt (some start) (.undefinedValue name)

theorem readLines_eq (m : Module) : readLines m = (do
    let _ ← fillBlocks m.symbol?
    if !(← eat (.punct .rbrace)) then refuse .unterminatedBody
    readSettled) := rfl

instance : Safe readSettled := Safe.bind inferInstance fun scope => by split <;> infer_instance

private theorem readLines_outOfRange {front : List Lexeme}
    (filled : Filled m f names (front ++ left) s)
    (passed : Passed front) (announced : Announced names.length front left 0)
    (failed : readLines m left s = .error .outOfRange) :
    LabelBehind (front ++ left) ∧ StopsAtPush m left s := by
  rw [readLines_eq] at failed
  rcases bind_error failed with here | ⟨count, rest, now, -, last⟩
  · exact fillBlocks_outOfRange filled passed announced here
  · exact absurd last (Safe.inside _ _)

/-- A body that begins with a label. -/
def readLabelled (m : Module) : Read Scope Unit := do
  addLabels (labels (← ahead))
  skip
  readLines m

/-- A body that begins with an instruction. -/
def readUnlabelled (m : Module) : Read Scope Unit := do
  update fun scope => { scope with function := (scope.function.addBlock "").2 }
  addLabels (labels (← ahead))
  readLines m

def readAnnounced (m : Module) : Option Token → Read Scope Unit
  | some (.label _) => readLabelled m
  | _ => readUnlabelled m

theorem readBody_announced (m : Module) :
    readBody m.symbol? = (do readAnnounced m (← peekToken)) := rfl

theorem readAnnounced_cases (m : Module) (next : Option Token) :
    (∃ name, next = some (.label name)) ∧ readAnnounced m next = readLabelled m ∨
      (∀ name, next ≠ some (.label name)) ∧ readAnnounced m next = readUnlabelled m := by
  unfold readAnnounced
  split
  · exact .inl ⟨⟨_, rfl⟩, rfl⟩
  · rename_i other
    exact .inr ⟨other, rfl⟩

/-- A block for each label, and one without a name if no label comes first. -/
def openBlocks : Read Scope Unit := do
  match ← peekToken with
  | some (.label _) =>
    addLabels (labels (← ahead))
    skip
  | _ =>
    update fun scope => { scope with function := (scope.function.addBlock "").2 }
    addLabels (labels (← ahead))

instance : Safe openBlocks := .bind inferInstance fun next => by split <;> infer_instance

theorem readBody_eq_open (m : Module) : readBody m.symbol? = (do
    openBlocks
    readLines m) := by
  rw [readBody_eq, openBlocks, bind_assoc]
  refine bind_congr fun next => ?_
  split <;> simp only [bind_assoc]

/-- Behind the labels, the lines of a body lead to an instruction without a block. -/
def LacksBlock (m : Module) (f : Function) (ts : List Lexeme) : Prop :=
  ∃ left, left <:+ ts ∧ StopsAtPush m left { function := withBlocks f (blockNames ts) }

private theorem readLabelled_outOfRange (fresh : Fresh f) {name : String}
    (next : ts.head?.map Lexeme.token = some (.label name))
    (failed : readLabelled m ts { function := f } = .error .outOfRange) :
    LabelBehind ts ∧ LacksBlock m f ts := by
  rcases bind_error failed with here | ⟨all, left, now, ahead, read⟩
  · exact absurd here (Safe.inside _ _)
  obtain ⟨rfl, rfl, rfl⟩ := reads_ahead.mp ahead
  rcases bind_error read with here | ⟨_, left, now, added, more⟩
  · exact absurd here (Safe.inside _ _)
  obtain ⟨-, rfl, rfl⟩ := addLabels_adds added (by simp [fresh.blocks])
  rcases bind_error more with here | ⟨_, left, now, skipped, lines⟩
  · exact absurd here (Safe.inside _ _)
  obtain ⟨rfl, rfl⟩ := reads_skip.mp skipped
  obtain ⟨label, first, token⟩ := Option.map_eq_some_iff.mp next
  obtain ⟨left, rfl⟩ := List.head?_eq_some_iff.mp first
  have names := labels_label token left
  have filled : Filled m f ((labels (label :: left)).map (·.1)) ([label] ++ left) _ :=
    fresh.filled _ _
  obtain ⟨found, stops⟩ := readLines_outOfRange filled (.single (by rw [token]; rfl) .nil)
    (.inl (by simp [names])) lines
  refine ⟨found, left, List.suffix_cons label left, ?_⟩
  rwa [blockNames_label next]

private theorem readUnlabelled_outOfRange (fresh : Fresh f)
    (other : ∀ name, ts.head?.map Lexeme.token ≠ some (.label name))
    (failed : readUnlabelled m ts { function := f } = .error .outOfRange) :
    LabelBehind ts ∧ LacksBlock m f ts := by
  rcases bind_error failed with here | ⟨_, left, now, updated, read⟩
  · exact absurd here (Safe.inside _ _)
  obtain ⟨rfl, rfl⟩ := reads_update.mp updated
  rcases bind_error read with here | ⟨all, left, now, ahead, read⟩
  · exact absurd here (Safe.inside _ _)
  obtain ⟨rfl, rfl, rfl⟩ := reads_ahead.mp ahead
  rcases bind_error read with here | ⟨_, left, now, added, lines⟩
  · exact absurd here (Safe.inside _ _)
  obtain ⟨-, rfl, rfl⟩ := addLabels_adds added (nodup_addBlock (by simp [fresh.blocks])
    (by simp [fresh.blocks]))
  rw [withBlocks_cons] at lines
  have filled : Filled m f ("" :: (labels left).map (·.1)) ([] ++ left) _ := fresh.filled _ _
  obtain ⟨found, stops⟩ := readLines_outOfRange filled .nil (.inl (by simp)) lines
  refine ⟨found, left, List.suffix_refl left, ?_⟩
  rwa [blockNames_entry other]

theorem readBody_outOfRange (fresh : Fresh f)
    (failed : readBody m.symbol? ts { function := f } = .error .outOfRange) :
    LabelBehind ts ∧ LacksBlock m f ts := by
  rw [readBody_announced] at failed
  rcases bind_error failed with here | ⟨next, left, now, peeked, read⟩
  · exact absurd here (Safe.inside _ _)
  obtain ⟨same, rfl, rfl⟩ := reads_peekToken.mp peeked
  rcases readAnnounced_cases m next with ⟨⟨name, label⟩, choice⟩ | ⟨other, choice⟩
  · rw [choice] at read
    exact readLabelled_outOfRange fresh (same.symm.trans label) read
  · rw [choice] at read
    exact readUnlabelled_outOfRange fresh (same ▸ other) read

private theorem fillFunction_outOfRange {src : List Char} {b : FuncId × List Lexeme}
    {bodies : List (FuncId × List Lexeme)} (known : PartlyFilled src (b :: bodies) m)
    (failed : fillFunction m b = .error .outOfRange) :
    LabelBehind b.2 ∧ ∃ f, m.function? b.1 = some f ∧ LacksBlock m f b.2 := by
  obtain ⟨id, body⟩ := b
  obtain ⟨-, f, found, headed, -⟩ := known.left _ List.mem_cons_self
  rcases fillFunction_error failed with ⟨-, missing⟩ | ⟨g, same, reading⟩
  · exact absurd (found.symm.trans missing) (Option.some_ne_none f)
  · obtain rfl := Option.some.inj (found.symm.trans same)
    obtain ⟨behind, lacks⟩ := readBody_outOfRange headed.fresh reading
    exact ⟨behind, f, found, lacks⟩

/-- The first body that cannot be filled. -/
theorem fillFunctions_outOfRange {src : List Char} {bodies : List (FuncId × List Lexeme)}
    (known : PartlyFilled src bodies m)
    (failed : bodies.foldlM fillFunction m = .error .outOfRange) :
    ∃ b ∈ bodies, LabelBehind b.2 ∧
      ∃ m' f, m'.function? b.1 = some f ∧ LacksBlock m' f b.2 := by
  induction bodies generalizing m with
  | nil => cases failed
  | cons b bodies ih =>
    rw [List.foldlM_cons] at failed
    rcases Failure.bind_eq_error.mp failed with first | ⟨m₁, first, more⟩
    · obtain ⟨behind, lacks⟩ := fillFunction_outOfRange known first
      exact ⟨b, List.mem_cons_self, behind, m, lacks⟩
    · obtain ⟨b', mem, behind⟩ := ih (known.fill first) more
      exact ⟨b', List.mem_cons_of_mem _ mem, behind⟩

/-- A token stands in the text, between characters. -/
def Placed (src : List Char) (t : Lexeme) : Prop :=
  ∃ piece, At src t.start piece ∧ t.stop = t.start + byteLength piece ∧ piece ≠ []

theorem placed_of_lex {src : List Char} {ts : List Lexeme} (lexed : lex src = .ok ts) :
    ∀ t ∈ ts, Placed src t := by
  intro t mem
  obtain ⟨front, back, rfl⟩ := List.append_of_mem mem
  have source : Source src (t :: back) := ⟨front, lexFrom_eq_ok.mp lexed⟩
  obtain ⟨piece, -, place, stop, c, more, rfl, -⟩ := source.spelled
  exact ⟨_, place, stop, List.cons_ne_nil _ _⟩

theorem lex_unique {src : List Char} (lexed : lex src = .ok ts) {us : List Lexeme}
    (source : Source src us) : ∃ before, ts = before ++ us := by
  obtain ⟨before, again⟩ := source
  have same := lexFrom_eq_ok.mpr again
  exact ⟨before, Except.ok.inj (lexed.symm.trans same)⟩

end

end BlockTally.Listing
