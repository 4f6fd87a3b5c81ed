import BlockTally.Listing.Written
import BlockTally.Proofs.Listing.Groups
import BlockTally.Proofs.Listing.Placed

/-! The words before a symbol, which are kept as text. Main statements: `describes_words`,
`accepts_words`. -/
namespace BlockTally.Listing
open Text Read

/-- A linkage counts, and any other word is kept as its text. -/
def Words.add (words : Words) (word text : String) : Words :=
  match Linkage.ofKeyword? word with
  | some linkage => { words with linkage }
  | none => { words with others := words.others ++ [text] }

section
variable {σ : Type} {src : List Char} {word text : String} {run ts rest : List Lexeme}
  {words words' : Words} {s s' : σ}

private theorem reads_addWord (found : span? src run = some text) :
    Reads (addWord src word run words) ts s words' rest s' ↔
      words' = words.add word text ∧ rest = ts ∧ s' = s := by
  unfold addWord Words.add
  cases Linkage.ofKeyword? word with
  | some linkage => exact reads_pure
  | none =>
    refine (Reads.bind_iff (reads_readSpan.mpr ⟨found, rfl, rfl⟩)).trans ?_
    exact reads_pure

theorem Reads.added (read : Reads (addWord src word run words) ts s words' rest s') :
    words' = words.add word (spanText src run) ∧ rest = ts ∧ s' = s := by
  unfold addWord at read
  unfold Words.add
  cases known : Linkage.ofKeyword? word with
  | some linkage =>
    rw [known] at read
    exact reads_pure.mp read
  | none =>
    rw [known] at read
    obtain ⟨text, between, t, here, last⟩ := reads_bind.mp read
    obtain ⟨found, rfl, rfl⟩ := reads_readSpan.mp here
    rw [spanText_eq found]
    exact reads_pure.mp last

end

/-- A word with its argument, and the text that both take. -/
structure Piece where
  word : String
  argument : List Token
  text : String

namespace Piece

def tokens (p : Piece) : List Token := .word p.word :: p.argument

def Known (numbered : Bool) (p : Piece) : Prop :=
  IsArgument (numbered = true) p.argument ∧ ∃ ts, Raw p.text ts ∧ ts.map (·.token) = p.tokens

/-- The words so far, and one more. -/
def addTo (words : Words) (p : Piece) : Words := words.add p.word p.text

def described (src : List Char) (p : Piece) : Described := Spanning src p.text p.tokens

end Piece

section
variable {src : List Char} {numbered : Bool}

theorem Piece.Known.describes {p : Piece} (known : p.Known numbered) :
    Describes src Anywhere (p.text ++ " ") (p.described src) := by
  obtain ⟨-, ts, raw, same⟩ := known
  have here : Describes src Ends p.text (p.described src) := by
    rw [described, ← same]
    exact raw.describes
  exact here.trailing spells_space fun post _ => ends_cons (by decide)

theorem Piece.Known.text_ne {p : Piece} (known : p.Known numbered) : p.text ≠ "" := by
  obtain ⟨-, ts, raw, same⟩ := known
  intro empty
  obtain ⟨t, more, rfl, -⟩ := List.map_eq_cons_iff.mp same
  have bounds := raw.lexed.start_le t List.mem_cons_self
  rw [empty, String.toList_empty, byteLength_nil] at bounds
  omega

/-- Each word with a blank behind it. -/
theorem describes_pieces {pieces : List Piece} (known : ∀ p ∈ pieces, p.Known numbered) :
    Describes src Anywhere (.join (pieces.map (·.text ++ " "))) (Each (Piece.described src) pieces) := by
  induction pieces with
  | nil => exact ⟨[], .nil, fun _ _ => rfl⟩
  | cons p pieces ih =>
    have first := known p List.mem_cons_self
    have rest := ih fun q mem => known q (List.mem_cons_of_mem _ mem)
    rw [List.map_cons, String.join_cons]
    exact first.describes.append rest fun _ _ => trivial

theorem wordText_intercalate {texts : List String} (some : ∀ text ∈ texts, text ≠ "") :
    wordText (" ".intercalate texts) = .join (texts.map (· ++ " ")) := by
  have spaced : ∀ (rest : List String) (text : String),
      " ".intercalate (text :: rest) ++ " " = .join ((text :: rest).map (· ++ " ")) := by
    intro rest
    induction rest with
    | nil => simp
    | cons next rest ih =>
      intro text
      rw [String.intercalate_cons_cons, List.map_cons, String.join_cons, ← ih]
      simp only [String.append_assoc]
  cases texts with
  | nil => rfl
  | cons text rest =>
    have some_text : (" ".intercalate (text :: rest)).isEmpty = false := by
      rw [← Bool.not_eq_true, String.isEmpty_iff]
      intro empty
      refine some text List.mem_cons_self ?_
      cases rest with
      | nil => simpa using empty
      | cons next rest =>
        rw [String.intercalate_cons_cons] at empty
        simpa using (congrArg String.toList empty)
    rw [wordText, some_text, if_neg Bool.false_ne_true, spaced]

/-- A word that ends the words. -/
abbrev LastWord (isLast : String → Bool) : List Lexeme → Prop := fun rest =>
  ∃ text, (rest.map (·.token)).head? = some (.word text) ∧ isLast text = true

variable (src) in
theorem accepts_words {isLast : String → Bool} {σ : Type} {P : σ → Prop} {pieces : List Piece}
    (known : ∀ p ∈ pieces, p.Known numbered ∧ isLast p.word = false) :
    Accepts (readWords src isLast numbered : Read σ Words) (Each (Piece.described src) pieces)
      (LastWord isLast) P fun words s => words = pieces.foldl Piece.addTo {} ∧ P s := by
  have loop : Accepts (readWords src isLast numbered : Read σ Words)
      (Each (Piece.described src) pieces) (LastWord isLast)
      (fun s => pieces.foldl Piece.addTo {} = pieces.foldl Piece.addTo {} ∧ P s)
      fun words s => pieces.foldl Piece.addTo {} = [].foldl Piece.addTo words ∧ P s := by
    refine accepts_loop (Piece.described src)
      (fun words later s => pieces.foldl Piece.addTo {} = later.foldl Piece.addTo words ∧ P s)
      (fun rest => NoArgument (rest.map (·.token))) ?_ ?_ ?_ {}
    · intro p mem words later ts rest s described apart holds
      obtain ⟨⟨argument, -⟩, not_last⟩ := known p mem
      obtain ⟨same, span⟩ := described
      obtain ⟨t, more, rfl, token, behind⟩ := List.map_eq_cons_iff.mp same
      obtain ⟨s', read, holds'⟩ := takes_argument argument more rest s behind apart holds.2
      refine ⟨t, more, (t, p.word), p.addTo words, s', rfl, ?_, ?_, holds.1, holds'⟩
      · simp [token, not_last]
      · refine reads_bind.mpr ⟨more, rest, s', reads_taken.mpr ⟨read, rfl⟩, ?_⟩
        exact (reads_addWord span).mpr ⟨rfl, rfl, rfl⟩
    · intro later ts rest each last t first
      cases later with
      | nil =>
        obtain rfl : ts = [] := each
        obtain ⟨text, word, -⟩ := last
        obtain rfl := Option.some.inj (word.symm.trans first)
        simp
      | cons p later =>
        obtain ⟨front, back, rfl, ⟨same, -⟩, -⟩ := each
        obtain ⟨u, more, rfl, token, -⟩ := List.map_eq_cons_iff.mp same
        obtain rfl : u.token = t := Option.some.inj first
        rw [token]
        simp
    · intro _ t ts last
      obtain ⟨text, word, yes⟩ := last
      have token : t.token = .word text := Option.some.inj word
      simp [token, yes]
  intro ts rest s each last holds
  obtain ⟨words, s', read, same, holds'⟩ := loop ts rest s each last ⟨rfl, holds⟩
  exact ⟨words, s', read, same.symm, holds'⟩

/-- A keyword as a word of its own; there may be none. -/
def keywordPieces (keyword : String) : List Piece :=
  if keyword = "" then [] else [⟨keyword, [], keyword⟩]

theorem keyword_known {keyword : String} (word : isWord keyword.toList = true) :
    Piece.Known numbered ⟨keyword, [], keyword⟩ :=
  ⟨⟨[], [], rfl, .inl rfl, .inl rfl⟩, _, (spelling_word word).raw, rfl⟩

theorem wordText_keyword (keyword : String) :
    wordText keyword = .join ((keywordPieces keyword).map (·.text ++ " ")) := by
  unfold wordText keywordPieces
  by_cases none : keyword = ""
  · rw [if_pos none, none]
    rfl
  · rw [if_neg none, if_neg (by simpa [String.isEmpty_iff] using none)]
    simp

theorem foldl_addTo {pieces : List Piece}
    (other : ∀ p ∈ pieces, Linkage.ofKeyword? p.word = none) (words : Words) :
    pieces.foldl Piece.addTo words =
      { words with others := words.others ++ pieces.map (·.text) } := by
  induction pieces generalizing words with
  | nil => simp
  | cons p pieces ih =>
    have step : p.addTo words = { words with others := words.others ++ [p.text] } := by
      rw [Piece.addTo, Words.add, other p List.mem_cons_self]
    rw [List.foldl_cons, step, ih fun q mem => other q (List.mem_cons_of_mem _ mem)]
    simp

/-- Text that the reader takes for words before a symbol, none of which tells the linkage. -/
def KeptWords (numbered : Bool) (isLast : String → Bool) (text : String) : Prop :=
  ∃ pieces : List Piece, text = " ".intercalate (pieces.map (·.text)) ∧
    ∀ p ∈ pieces, p.Known numbered ∧ isLast p.word = false ∧ Linkage.ofKeyword? p.word = none

theorem kept_nothing {numbered : Bool} {isLast : String → Bool} : KeptWords numbered isLast "" :=
  ⟨[], rfl, nofun⟩

end

end BlockTally.Listing
