import BlockTally.Listing.Written
import BlockTally.Proofs.Listing.Patterns

/-! Written names at the start of a text. Main statement: `names_lexed`. -/
namespace BlockTally.Listing
open Text

/-- The first token of a text takes just this piece, and the others are those of what stands behind. -/
def Opens (piece post : List Char) (t : Token) : Prop :=
  lex (piece ++ post) = (lexFrom (byteLength piece) post).map (⟨t, 0, byteLength piece⟩ :: ·)

section
variable {c : Char} {cs post : List Char} {t : Token} {name : String}

private theorem opens_of_tokenAt (solid : isGap c = false) (code : c ≠ ';')
    (found : tokenAt c (cs ++ post) = some (t, cs.length)) : Opens (c :: cs) post t := by
  rw [Opens, lex, lexFrom_token solid code found, Nat.zero_add]

theorem Spelling.opens (spelled : Spelling cs t) (ends : Ends post) : Opens cs post t := by
  obtain ⟨c, more, rfl, solid, code, found⟩ := spelled.tokenAt_append ends
  exact opens_of_tokenAt solid code found

/-- A colon ends a label, whatever stands behind it. -/
theorem opens_label (unquoted : Unquoted name) (post : List Char) :
    Opens ((spelled name).toList ++ [':']) post (.label name) := by
  unfold spelled
  split
  · rename_i plain
    obtain ⟨some, names⟩ := isPlain_spec plain
    obtain ⟨c, cs, same⟩ := List.exists_cons_of_ne_nil some
    have found := tokenAt_label (same ▸ names) post
    obtain ⟨solid, code⟩ := isGap_of_isNameChar (names c (by simp [same]))
    rw [← same, String.ofList_toList] at found
    rw [same]
    exact opens_of_tokenAt solid code (by simpa using found)
  · have found := tokenAt_quote unquoted (':' :: post)
    rw [if_pos List.head?_cons, String.ofList_toList] at found
    have whole : ("\"" ++ name ++ "\"").toList ++ [':'] = '"' :: (name.toList ++ ['"', ':']) := by simp
    rw [whole]
    exact opens_of_tokenAt (by decide) (by decide) (by simpa using found)

private theorem ends_of_written (behind : ∀ c ∈ post.head?, c ∈ [' ', '\n', ',', '(', ')']) :
    Ends post := by
  intro c first
  have apart : ∀ c ∈ [' ', '\n', ',', '(', ')'], isNameChar c = false ∧ c ≠ ':' := by decide
  exact apart c (behind c first)

/-- A written name is one token, before all that is written behind names; so is the label of a block,
before anything. Such a label makes the first line of a block of this name. -/
theorem names_lexed (unquoted : Unquoted name) :
    (∀ post : List Char, (∀ c ∈ post.head?, c ∈ [' ', '\n', ',', '(', ')']) →
      Opens (localNameText name).toList post (.localName name) ∧
        Opens (globalNameText name).toList post (.globalName name)) ∧
    (∀ post, Opens ((localNameText name).toList.tail ++ [':']) post (.label name)) ∧
    ∀ (isEntry : Bool) (b : Block), b.name = name → (isEntry = true → name ≠ "") →
      (labelLine isEntry b).toList = (localNameText name).toList.tail ++ [':', '\n'] := by
  have value : (localNameText name).toList = '%' :: (spelled name).toList := by simp [localNameText]
  have symbol : (globalNameText name).toList = '@' :: (spelled name).toList := by
    simp [globalNameText]
  have named := nameSpelling unquoted
  refine ⟨fun post behind => ⟨?_, ?_⟩, fun post => ?_, fun isEntry b same some => ?_⟩
  · rw [value]
    exact (Spelling.localName named).opens (ends_of_written behind)
  · rw [symbol]
    exact (Spelling.globalName named).opens (ends_of_written behind)
  · rw [value]
    exact opens_label unquoted post
  · subst same
    have labelled : ¬ (isEntry && b.name.isEmpty) = true := by simpa using some
    rw [labelLine, if_neg labelled, value]
    simp

end

/-- A name that begins like a number is written in quotes. -/
theorem names_lexed_quoted : Unquoted "1x" ∧
    Opens (localNameText "1x").toList [',', ' ', '%'] (.localName "1x") ∧
    Opens (globalNameText "1x").toList ['(', ')'] (.globalName "1x") ∧
    Opens ((localNameText "1x").toList.tail ++ [':']) ['\n'] (.label "1x") := by
  have unquoted : Unquoted "1x" := by decide
  obtain ⟨names, label, -⟩ := names_lexed unquoted
  exact ⟨unquoted, (names _ (by simp)).1, (names _ (by simp)).2, label _⟩

end BlockTally.Listing
