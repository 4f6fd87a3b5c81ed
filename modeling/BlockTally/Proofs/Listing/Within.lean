import BlockTally.Proofs.Listing.Entries
import BlockTally.Proofs.Listing.Safe

/-! Entities stay within the text. The text of a run of tokens, the end of a line and the last token
taken are there as long as the tokens are those that are left of the text. Main statement:
`within_readEntities`. -/
namespace BlockTally.Listing
open Read Text

section
variable {σ α β : Type} {src : List Char} {m : Read σ α} {ts run more : List Lexeme} {s : σ}

/-- From here the step names no entry that its table does not have. -/
def Within (m : Read σ α) (ts : List Lexeme) (s : σ) : Prop := m ts s ≠ .error .outOfRange

theorem Safe.within [Safe m] : Within m ts s := Safe.inside ts s

theorem Within.bind {f : α → Read σ β} (first : Within m ts s)
    (second : ∀ a rest s', Reads m ts s a rest s' → Within (f a) rest s') :
    Within (m >>= f) ts s := by
  intro bad
  rcases bind_error bad with here | ⟨a, rest, s', read, here⟩
  · exact first here
  · exact second a rest s' read here

private theorem within_present {a : α} {found : Option α} (some : found = some a) :
    Within (present found) ts s := by
  subst some
  nofun

private theorem within_loop {pick : α → Lexeme → List Lexeme → Option β} {body : β → α → Read σ α}
    {a : α}
    (source : Source src ts) (each : ∀ a t ts s b, pick a t ts = some b → Source src (t :: ts) →
      Within (body b a) ts s) : Within (whileNext pick body a) ts s := by
  intro bad
  obtain ⟨c, t, left, now, b, rounds, picked, here⟩ := whileNext_error bad
  refine each c t left now b picked (rounds.preserves (P := fun _ left _ => Source src left) ?_ source)
    here
  intro _ _ _ _ _ _ _ _ _ source once
  exact source.suffix (once.suffix.trans (List.suffix_cons _ _))

private theorem within_traced (step : Within m ts s) : Within (traced m) ts s := by
  intro bad
  unfold traced at bad
  split at bad
  · rename_i e failed
    cases bad
    exact step failed
  · cases bad

/-! The text of tokens. -/

private theorem within_readSpan (source : Source src (run ++ more)) :
    Within (readSpan src run) ts s :=
  within_present (source.span? run more)

private theorem within_addWord {word : String} {words : Words} (source : Source src (run ++ more)) :
    Within (addWord src word run words) ts s := by
  unfold addWord
  split
  · exact Safe.within
  · exact (within_readSpan source).bind fun _ _ _ _ => Safe.within

theorem lineEnd?_of_at {offset : Nat} (here : At src offset []) :
    ∃ rest, lineEnd? src offset = some (offset + firstLine rest) ∧ At src offset rest := by
  obtain ⟨pre, post, rfl, rfl⟩ := here
  exact ⟨post, lineEnd?_behind pre post, pre, [], by simp, rfl⟩

private theorem within_restOfLine {offset : Nat} (here : At src offset []) :
    Within (restOfLine src offset) ts s := by
  obtain ⟨rest, found, -⟩ := lineEnd?_of_at here
  exact (within_present found).bind fun _ _ _ _ => Safe.within

private theorem within_lineText {offset : Nat} (here : At src offset []) (source : Source src ts) :
    Within (lineText src offset) ts s := by
  refine (within_restOfLine here).bind fun line rest _ read => ?_
  obtain ⟨-, rfl, -⟩ := restOfLine_read read
  exact within_readSpan source

/-! First lines of functions. -/

private theorem within_readWords {isLast : String → Bool} {numbered : Bool}
    (source : Source src ts) :
    Within (readWords src isLast numbered) ts s := by
  refine within_loop source ?_
  rintro words t ts s ⟨first, word⟩ picked source
  obtain rfl : t = first := by
    split at picked
    · split at picked
      · cases picked
      · exact (congrArg Prod.fst (Option.some.inj picked))
    · cases picked
  refine Within.bind Safe.within fun argument rest _ taking => ?_
  obtain ⟨-, rfl⟩ := reads_taken.mp taking
  have spanned : Source src ((t :: argument) ++ rest) := source
  exact within_addWord spanned

private theorem within_readParam (f : Function) (source : Source src ts) :
    Within (readParam src f) ts s := by
  refine Within.bind Safe.within fun dots rest _ eaten => ?_
  split
  · exact Safe.within
  · refine Within.bind Safe.within fun ty rest _ type => Within.bind Safe.within fun took rest _ taking => ?_
    have source := source.suffix (type.suffix.trans eaten.suffix)
    obtain ⟨-, rfl⟩ := reads_taken.mp taking
    refine (within_readSpan source).bind fun _ _ _ _ => Within.bind Safe.within fun next _ _ _ => ?_
    split
    · refine Within.bind Safe.within fun _ _ _ _ => ?_
      split <;> exact Safe.within
    · exact Safe.within

private theorem within_readSlots (f : Function) (source : Source src ts) :
    Within (readSlots src f) ts s := by
  refine Within.bind Safe.within fun empty rest _ eaten => ?_
  split
  · exact Safe.within
  · have source := source.suffix eaten.suffix
    refine (within_readParam f source).bind fun first _ _ one => Within.bind ?_ fun _ _ _ _ => Safe.within
    exact within_loop (source.suffix one.suffix) fun f t ts s _ _ source =>
      within_readParam f (source.suffix (List.suffix_cons t ts))

private theorem within_readHeader (source : Source src ts) : Within (readHeader src) ts s := by
  refine (within_readWords source).bind fun words rest _ read => Within.bind Safe.within fun next rest' _ peeked => ?_
  have source := source.suffix (peeked.suffix.trans read.suffix)
  split
  · rw [readSignature_eq]
    refine Within.bind Safe.within fun ret _ _ type => Within.bind Safe.within fun name _ _ named =>
      Within.bind Safe.within fun _ _ _ paren => ?_
    exact within_readSlots _ (source.suffix (paren.suffix.trans (named.suffix.trans type.suffix)))
  · exact Safe.within

end

/-! Entities. -/

section
variable {α : Type} {src : List Char} {first : Lexeme} {ts : List Lexeme} {d : Draft}

/-- A change that is done as a whole or refused names no entry at all. -/
theorem safe_enter (start : Nat) (op : Module → Except EditError (α × Module)) :
    Safe (enter start (.attempt fun m => (op m).mapError .refused)) := by
  refine .bind inferInstance fun draft => ?_
  simp only [Edit.attempt]
  cases op draft.module with
  | error e => exact inferInstanceAs (Safe (refuseAt (some start) (.refusedEdit e)))
  | ok r =>
    exact inferInstanceAs (Safe (do
      update fun draft : Draft => { draft with module := r.2 }
      return r.1))

instance (start : Nat) (f : Function) : Safe (enter start (Register.addFunction f) : Read Draft _) :=
  safe_enter start fun m => m.addFunction f

instance (start : Nat) (g : Global) : Safe (enter start (Register.addGlobal g) : Read Draft _) :=
  safe_enter start fun m => m.addGlobal g

instance (f : Module → Module) : Safe (alter f : Read Draft Unit) := by unfold alter; infer_instance

instance {σ : Type} : Safe (readQuoted : Read σ String) := by unfold readQuoted; infer_instance

instance : Safe (readTarget : Read Draft Unit) :=
  .bind inferInstance fun start => .bind inferInstance fun property =>
    .bind inferInstance fun _ => .bind inferInstance fun text => by split <;> infer_instance

private theorem within_readDeclaration (source : Source src (first :: ts)) :
    Within (readDeclaration src first) ts d := by
  refine (within_traced (within_readHeader (source.suffix (List.suffix_cons first ts)))).bind
    fun (f, header) rest _ tracing => ?_
  obtain ⟨-, rfl⟩ := reads_traced.mp tracing
  obtain ⟨front, sign, took⟩ := (List.eq_nil_or_concat (first :: header)).resolve_left nofun
  rw [List.concat_eq_append] at took
  rw [← List.cons_append, took, List.append_assoc] at source
  dsimp only
  rw [took, List.getLast?_concat]
  have behind : Source src (sign :: rest) := source.right
  exact (within_lineText behind.behind.1 (behind.suffix (List.suffix_cons sign rest))).bind
    fun _ _ _ _ => Safe.within

private theorem within_readDefinition (start : Nat) (source : Source src ts) :
    Within (readDefinition src start) ts d := by
  refine (within_readHeader source).bind fun f _ _ header => Within.bind Safe.within
    fun took rest _ taking => ?_
  have source := source.suffix header.suffix
  obtain ⟨-, rfl⟩ := reads_taken.mp taking
  exact (within_readSpan source).bind fun _ _ _ _ => Safe.within

private theorem within_readGlobal {name : String} (source : Source src (first :: ts)) :
    Within (readGlobal src first.start name) ts d := by
  obtain ⟨text, -, place, -⟩ := source.spelled
  have source := source.suffix (List.suffix_cons first ts)
  refine Within.bind Safe.within fun _ _ _ equals => ?_
  have source := source.suffix equals.suffix
  refine (within_readWords source).bind fun words _ _ qualifying => Within.bind Safe.within
    fun last _ _ keyword => Within.bind Safe.within fun ty _ _ type => Within.bind Safe.within
    fun initial _ _ value => Within.bind Safe.within fun align _ _ aligned => Within.bind Safe.within
    fun comma rest _ eaten => ?_
  have source := source.suffix (eaten.suffix.trans (aligned.suffix.trans (value.suffix.trans
    (type.suffix.trans (keyword.suffix.trans qualifying.suffix)))))
  split
  · exact (within_lineText (place.left (a := [])) source).bind fun _ _ _ _ => Safe.within
  · exact Safe.within

private theorem within_readNode {σ : Type} {s : σ} (source : Source src (first :: ts)) :
    Within (readNode src first) ts s := by
  refine Within.bind Safe.within fun took rest _ taking => ?_
  obtain ⟨-, rfl⟩ := reads_taken.mp taking
  obtain ⟨front, sign, same⟩ := (List.eq_nil_or_concat (first :: took)).resolve_left nofun
  rw [List.concat_eq_append] at same
  rw [← List.cons_append, same, List.append_assoc] at source
  rw [same, List.getLast?_concat]
  have behind : Source src (sign :: rest) := source.right
  refine (within_present rfl).bind fun last _ _ found => ?_
  obtain ⟨last_eq, rfl, rfl⟩ := reads_present.mp found
  obtain rfl := Option.some.inj last_eq
  obtain ⟨line, line_end, place⟩ := lineEnd?_of_at behind.behind.1
  refine (within_present line_end).bind fun stop _ _ found => ?_
  obtain ⟨stop_eq, rfl, rfl⟩ := reads_present.mp found
  obtain rfl := Option.some.inj (line_end.symm.trans stop_eq)
  refine (within_restOfLine behind.behind.1).bind fun _ _ _ _ => ?_
  have split := List.takeWhile_append_dropWhile (p := (· != '\n')) (l := line)
  rw [← split] at place
  refine (within_present place.left.slice?).bind fun _ _ _ _ => Safe.within

private theorem within_readEntity (source : Source src (first :: ts)) :
    Within (readEntity src first) ts d := by
  have behind : Source src ts := source.suffix (List.suffix_cons first ts)
  have kept : ∀ add : String → Module → Module, Within (do
      let line ← restOfLine src first.start
      let text ← readSpan src (first :: line)
      alter (add text)) ts d := by
    intro add
    obtain ⟨text, -, place, -⟩ := source.spelled
    refine (within_restOfLine (place.left (a := []))).bind fun line rest _ read => ?_
    obtain ⟨-, rfl, -⟩ := restOfLine_read read
    have spanned : Source src ((first :: line) ++ rest) := source
    exact (within_readSpan spanned).bind fun _ _ _ _ => Safe.within
  unfold readEntity
  split
  · exact Safe.within
  · exact Safe.within
  · exact within_readDeclaration source
  · exact within_readDefinition _ behind
  · exact kept fun text m => m.addAttributeGroup text
  · exact Safe.within
  · exact within_readGlobal source
  · exact kept fun text m => m.addComdat text
  · exact (within_readNode source).bind fun _ _ _ _ => Safe.within
  · exact (within_readNode source).bind fun _ _ _ _ => Safe.within
  · exact Safe.within

/-- No entity asks for text, a line or a token that the source does not have. -/
theorem within_readEntities (source : Source src ts) : Within (readEntities src) ts d :=
  within_loop source fun _ t ts d first picked source => by
    obtain rfl := Option.some.inj picked
    exact within_readEntity source

end

end BlockTally.Listing
