import BlockTally.Proofs.Listing.Told

/-! What reading gives: a module, a refusal, or neither where a body has a label behind a closing brace.
Main statement: `parseBytes_outcome`. -/
namespace BlockTally.Listing
open Read

/-- All entities of a text are read. One of the bodies that are left for later has a label behind a
closing brace, and leads to an instruction whose block the function does not have. -/
def LacksBlockBehind (name : String) (src : List Char) : Prop :=
  ∃ ts rest d, lex src = .ok ts ∧
    Reads (readEntities src) ts { module := Registry.new name } () rest d ∧
      ∃ b ∈ d.bodies, LabelBehind b.2 ∧
        ∃ m f, m.function? b.1 = some f ∧ LacksBlock m f b.2

private theorem parse_outOfRange {name text : String}
    (failed : parse name text = .error .outOfRange) :
    LacksBlockBehind name text.toList := by
  rw [parse_told] at failed
  cases lexed : lex text.toList with
  | error offset =>
    rw [lexed] at failed
    cases failed
  | ok ts =>
    rw [lexed] at failed
    have source : Source text.toList ts := ⟨[], lexFrom_eq_ok.mp lexed⟩
    have start : DraftOf.Shows { module := Registry.new name } { module := { name } } :=
      ⟨rfl, Registry.agrees_new name, rfl⟩
    rcases parseTokens_error (Failure.mapError_eq_outOfRange.mp failed) with
      reading | ⟨rest, d, read, filling⟩
    · exact absurd reading (within_readEntities source)
    · obtain ⟨known, -⟩ := entities_read lexed read
      obtain ⟨b, mem, lacks⟩ := fillFunctions_outOfRange known.partlyFilled filling
      rcases (mirrors_readEntities text.toList).run ts _ _ start with
        ⟨e, -, there⟩ | ⟨_, left, r, d', here, there, shows⟩
      · exact absurd there read.not_error
      · obtain ⟨-, -, rfl⟩ := (reads_of_eq_ok there).unique read
        exact ⟨ts, left.val, r, lexed, reads_of_eq_ok here, b, shows.bodies ▸ mem, lacks⟩

/-- Reading gives a module or refuses, unless a label follows a closing brace in a body. Then the text
has tokens, all its entities are read, and what is not there is a block of the function that is being
filled. -/
theorem parseBytes_outcome (name : String) (bytes : ByteArray) :
    (∃ m, parseBytes name bytes = .ok m) ∨ (∃ e, parseBytes name bytes = .error (.refused e)) ∨
      parseBytes name bytes = .error .outOfRange ∧ ∃ text, String.fromUTF8? bytes = some text ∧
        LacksBlockBehind name text.toList := by
  cases outcome : parseBytes name bytes with
  | ok m => exact .inl ⟨m, rfl⟩
  | error e =>
    cases e with
    | refused cause => exact .inr (.inl ⟨cause, rfl⟩)
    | outOfRange =>
      refine .inr (.inr ⟨rfl, ?_⟩)
      unfold parseBytes at outcome
      split at outcome
      · cases outcome
      · split at outcome
        · cases outcome
        · rename_i text decoded
          exact ⟨text, decoded, parse_outOfRange outcome⟩

/-- The closing brace of the node hides the second label from the first scan. -/
def attached : String :=
  "define void @f() \x7b
  ret void, !p !\x7b\x7d
b:
  ret void
\x7d
"

def isOutOfRange {α ε : Type} : Except (Failure ε) α → Bool
  | .error .outOfRange => true
  | _ => false

private theorem eq_outOfRange {α ε : Type} {x : Except (Failure ε) α}
    (out : isOutOfRange x = true) :
    x = .error .outOfRange := by
  unfold isOutOfRange at out
  split at out
  · rfl
  · cases out

private theorem parseBytes_attached : parseBytes "m" attached.toUTF8 = .error .outOfRange := by
  have text : bitcodeMagics.any (·.isPrefixOf attached.toUTF8.toList) = false := by decide +kernel
  have out : isOutOfRange (parse "m" attached) = true := by
    refine (congrArg isOutOfRange (parse_ofList "m" _)).trans ?_
    decide +kernel
  rw [parseBytes, text, if_neg Bool.false_ne_true, fromUTF8?_toUTF8]
  exact eq_outOfRange out

/-- Reading gives neither a module nor a refusal. -/
theorem attached_unread : ¬ ((∃ m, parseBytes "m" attached.toUTF8 = .ok m) ∨
    ∃ e, parseBytes "m" attached.toUTF8 = .error (.refused e)) := by
  rw [parseBytes_attached]
  simp

end BlockTally.Listing
