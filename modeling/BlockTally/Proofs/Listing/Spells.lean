import BlockTally.Code.Operand
import BlockTally.Proofs.Listing.Lexing

/-! The tokens of written pieces: names, numbers, types and the words and marks between them. -/
namespace BlockTally.Listing
open Text

abbrev Anywhere : List Char → Prop := fun _ => True

/-- The tokens of `text` wherever it stands before a text that may follow it. -/
def Spells (follows : List Char → Prop) (text : String) (toks : List Token) : Prop :=
  ∃ ts, Lexes follows text.toList ts ∧ ts.map (·.token) = toks

section
variable {follows followed : List Char → Prop} {a b : String} {ta tb : List Token}

theorem Spells.imp (spells : Spells followed a ta) (less : ∀ post, follows post → followed post) :
    Spells follows a ta := by
  obtain ⟨ts, lexes, same⟩ := spells
  exact ⟨ts, lexes.imp less, same⟩

theorem Spells.append (first : Spells followed a ta) (second : Spells follows b tb)
    (between : ∀ post, follows post → followed (b.toList ++ post)) :
    Spells follows (a ++ b) (ta ++ tb) := by
  obtain ⟨ts, lexes, rfl⟩ := first
  obtain ⟨us, lexes', rfl⟩ := second
  have whole := lexes.append lexes' between
  rw [← String.toList_append] at whole
  exact ⟨_, whole, by rw [List.map_append, map_token_shift]⟩

theorem Spells.next (first : Spells Anywhere a ta) (second : Spells follows b tb) :
    Spells follows (a ++ b) (ta ++ tb) := first.append second fun _ _ => trivial

/-- The second piece does not run on the first. -/
theorem Spells.ends (first : Spells Ends a ta) (second : Spells Ends b tb)
    (apart : Ends b.toList) : Spells Ends (a ++ b) (ta ++ tb) :=
  first.append second fun _ ends => apart.append ends

theorem Spells.closed (first : Spells Ends a ta) (second : Spells Anywhere b tb)
    (some : b.toList ≠ []) (apart : Ends b.toList) : Spells Anywhere (a ++ b) (ta ++ tb) := by
  refine first.append second fun post _ => ?_
  obtain ⟨c, rest, same⟩ := List.exists_cons_of_ne_nil some
  rw [same] at apart ⊢
  exact ends_cons (apart c rfl)

end

theorem spells_empty {follows : List Char → Prop} : Spells follows "" [] := ⟨[], .nil, rfl⟩

theorem Spelling.spells {cs : List Char} {t : Token} (spelled : Spelling cs t) {text : String}
    (same : text.toList = cs) : Spells Ends text [t] := ⟨_, same ▸ spelled.lexes, rfl⟩

theorem spells_space : Spells Anywhere " " [] := ⟨[], lexes_gap (by decide), rfl⟩

theorem spells_break : Spells Anywhere "\n" [] := ⟨[], lexes_gap (by decide), rfl⟩

theorem spelling_word {word : String} (known : isWord word.toList = true) :
    Spelling word.toList (.word word) := by
  obtain ⟨c, cs, same⟩ : ∃ c cs, word.toList = c :: cs := by
    refine List.exists_cons_of_ne_nil fun empty => ?_
    rw [empty] at known
    cases known
  have plain : ∀ d ∈ c :: cs, isNameChar d = true := by
    rw [same] at known
    simp only [isWord, Bool.and_eq_true, Bool.or_eq_true, beq_iff_eq, List.all_eq_true] at known
    intro d mem
    rcases List.mem_cons.mp mem with rfl | mem
    · rcases known.1 with letter | rfl
      · simp [isNameChar, Char.isAlphanum, letter]
      · decide
    · rcases known.2 d mem with (letter | rfl) | rfl
      · simp [isNameChar, letter]
      · decide
      · decide
  rw [same]
  refine .word plain ?_
  unfold wordToken?
  rw [← same, if_pos known, String.ofList_toList]

theorem spells_word {word : String} (known : isWord word.toList = true) :
    Spells Ends word [.word word] := (spelling_word known).spells rfl

/-- A word and the blank behind it. -/
theorem spells_keyword {word : String} (known : isWord word.toList = true) :
    Spells Anywhere (word ++ " ") [.word word] :=
  (spells_word known).closed spells_space (by decide) (ends_cons (by decide))

private theorem tokenAt_punct {c : Char} {p : Punct} (other : c ≠ '!')
    (known : Punct.ofChar? c = some p)
    (rest : List Char) : isGap c = false ∧ c ≠ ';' ∧ tokenAt c rest = some (.punct p, 0) := by
  unfold Punct.ofChar? at known
  split at known <;> cases known <;>
    first | exact absurd rfl other | exact ⟨by decide, by decide, rfl⟩

theorem lexes_punct {c : Char} {p : Punct} (other : c ≠ '!') (known : Punct.ofChar? c = some p) :
    Lexes Anywhere [c] [⟨.punct p, 0, c.utf8Size⟩] := by
  intro o post us _ lexed
  obtain ⟨solid, plain, found⟩ := tokenAt_punct other known post
  have here := Lexed.token (.punct other known) ⟨c, [], rfl, solid, plain, found⟩ lexed
  simpa [Lexeme.shift] using here

theorem spells_punct {c : Char} {p : Punct} (other : c ≠ '!') (known : Punct.ofChar? c = some p) :
    Spells Anywhere (String.ofList [c]) [.punct p] := by
  refine ⟨[⟨.punct p, 0, c.utf8Size⟩], ?_, rfl⟩
  rw [String.toList_ofList]
  exact lexes_punct other known

theorem spells_lparen : Spells Anywhere "(" [.punct .lparen] :=
  spells_punct (by decide) (c := '(') rfl

theorem spells_rparen : Spells Anywhere ")" [.punct .rparen] :=
  spells_punct (by decide) (c := ')') rfl

theorem spells_comma : Spells Anywhere ", " [.punct .comma] :=
  (spells_punct (by decide) (c := ',') rfl).next spells_space

theorem spells_ellipsis : Spells Ends "..." [.punct .ellipsis] :=
  Spelling.spells (.word (by decide) rfl) rfl

/-! Names. -/

def Unquoted (name : String) : Prop := ∀ c ∈ name.toList, c ≠ '"'

instance (name : String) : Decidable (Unquoted name) :=
  inferInstanceAs (Decidable (∀ c ∈ name.toList, c ≠ '"'))

theorem isPlain_spec {name : String} (plain : isPlain name = true) :
    name.toList ≠ [] ∧ ∀ c ∈ name.toList, isNameChar c = true := by
  unfold isPlain at plain
  split at plain
  · cases plain
  · next c cs same =>
    rw [same]
    refine ⟨List.cons_ne_nil c cs, ?_⟩
    intro d mem
    rcases Bool.or_eq_true_iff.mp plain with digits | letters
    · exact isNameChar_of_isDigit (List.all_eq_true.mp digits d mem)
    · exact List.all_eq_true.mp (Bool.and_eq_true_iff.mp letters).2 d mem

theorem nameSpelling {name : String} (unquoted : Unquoted name) :
    NameSpelling (spelled name).toList name := by
  unfold spelled
  split
  · next plain =>
    obtain ⟨some, names⟩ := isPlain_spec plain
    have bare := NameSpelling.bare some names
    rwa [String.ofList_toList] at bare
  · have quoted := NameSpelling.quoted unquoted
    simpa using quoted

theorem spells_globalName {name : String} (unquoted : Unquoted name) :
    Spells Ends ("@" ++ spelled name) [.globalName name] :=
  Spelling.spells (.globalName (nameSpelling unquoted)) (by simp)

theorem spells_localName {name : String} (unquoted : Unquoted name) :
    Spells Ends ("%" ++ spelled name) [.localName name] :=
  Spelling.spells (.localName (nameSpelling unquoted)) (by simp)

theorem spells_label {name : String} (unquoted : Unquoted name) :
    Spells Ends (spelled name ++ ":") [.label name] := by
  unfold spelled
  split
  · next plain =>
    obtain ⟨some, names⟩ := isPlain_spec plain
    obtain ⟨c, cs, same⟩ := List.exists_cons_of_ne_nil some
    rw [same] at names
    have label := Spelling.label names
    rw [← same, String.ofList_toList] at label
    exact label.spells (by simp [same])
  · have label := Spelling.quotedLabel unquoted
    rw [String.ofList_toList] at label
    exact label.spells (by simp)

theorem spells_quoted {text : String} (unquoted : Unquoted text) :
    Spells Ends ("\"" ++ text ++ "\"") [.quoted text] := by
  have quoted := Spelling.quoted unquoted
  rw [String.ofList_toList] at quoted
  exact quoted.spells (by simp)

/-! Numbers. -/

private theorem natural?_toDigits (n : Nat) : natural? (Nat.toDigits 10 n) = some n := by
  have digits : (Nat.toDigits 10 n).all Char.isDigit = true :=
    List.all_eq_true.mpr fun c mem => Nat.isDigit_of_mem_toDigits (by decide) (by decide) mem
  simp [natural?, digits]

theorem toList_toString_nat (n : Nat) : (toString n).toList = Nat.toDigits 10 n := by simp

theorem word32OfInt?_toNat (n : UInt32) : word32OfInt? n.toNat = some n := by
  have sign : (0 : Int) ≤ n.toNat := Int.natCast_nonneg _
  unfold word32OfInt?
  rw [Int.toNat_natCast, if_pos ⟨sign, n.toNat_lt⟩, UInt32.ofNat_toNat]

private theorem int64OfInt?_toInt (v : Int64) : int64OfInt? v.toInt = some v := by
  have low : Int64.minValue.toInt ≤ v.toInt := v.minValue_le_toInt
  have high : v.toInt ≤ Int64.maxValue.toInt := v.toInt_le
  unfold int64OfInt?
  rw [if_pos ⟨low, high⟩, Int64.ofInt_toInt]

theorem word32?_toString (n : UInt32) : word32? (toString n.toNat).toList = some n := by
  rw [toList_toString_nat, word32?, natural?_toDigits, Option.bind_some]
  exact word32OfInt?_toNat n

theorem toList_toString_int (v : Int) : (toString v).toList =
    if v < 0 then '-' :: Nat.toDigits 10 v.natAbs else Nat.toDigits 10 v.natAbs := by
  cases v with
  | ofNat n =>
    have sign : ¬ Int.ofNat n < 0 := Int.not_lt.mpr (Int.natCast_nonneg n)
    rw [if_neg sign]
    exact toList_toString_nat n
  | negSucc n =>
    have text : toString (Int.negSucc n) = "-" ++ toString (n + 1) := rfl
    rw [if_pos (Int.negSucc_lt_zero n), text, String.toList_append, toList_toString_nat]
    rfl

theorem not_letter_of_isDigit {c : Char} (digit : c.isDigit = true) :
    c.isAlpha = false ∧ c ≠ '_' ∧ c ≠ '.' ∧ c ≠ '$' ∧ c ≠ '-' := by
  refine ⟨?_, ?_, ?_, ?_, ?_⟩
  · unfold Char.isDigit at digit
    unfold Char.isAlpha Char.isUpper Char.isLower
    simp only [Bool.and_eq_true, decide_eq_true_eq, UInt32.le_iff_toNat_le, ge_iff_le,
      Bool.or_eq_false_iff, Bool.and_eq_false_iff, decide_eq_false_iff_not] at digit ⊢
    have : '9'.val.toNat = 57 := rfl
    have : 'A'.val.toNat = 65 := rfl
    have : 'a'.val.toNat = 97 := rfl
    omega
  all_goals
    intro same
    rw [same] at digit
    exact absurd digit (by decide)

theorem int64?_of_digit {c : Char} {cs : List Char} (digit : c.isDigit = true) :
    int64? (c :: cs) = (natural? (c :: cs)).bind fun n => int64OfInt? n := by
  unfold int64?
  split
  · next same => exact absurd (List.cons.inj same).1 (not_letter_of_isDigit digit).2.2.2.2
  · rfl

theorem spells_int (v : Int64) : Spells Ends (toString v.toInt) [.int v] := by
  obtain ⟨c, cs, run⟩ := List.exists_cons_of_ne_nil
    (Nat.toDigits_ne_nil (n := v.toInt.natAbs) (b := 10))
  have digits : ∀ d ∈ c :: cs, d.isDigit = true := by
    intro d mem
    exact Nat.isDigit_of_mem_toDigits (by decide) (by decide) (run ▸ mem)
  have first := digits c List.mem_cons_self
  have number : natural? (c :: cs) = some v.toInt.natAbs := by rw [← run, natural?_toDigits]
  have back := int64OfInt?_toInt v
  have names : ∀ d ∈ c :: cs, isNameChar d = true := fun d mem =>
    isNameChar_of_isDigit (digits d mem)
  obtain ⟨no_letter, no_line, no_dot, no_dollar, -⟩ := not_letter_of_isDigit first
  by_cases sign : v.toInt < 0
  · have text := toList_toString_int v.toInt
    rw [if_pos sign, run] at text
    refine Spelling.spells (.word ?_ ?_) text
    · intro d mem
      rcases List.mem_cons.mp mem with rfl | mem
      · decide
      · exact names d mem
    · have value : -(v.toInt.natAbs : Int) = v.toInt := by omega
      rw [wordToken?, if_neg (by simp [isWord]), if_neg (by simp), int64?, number,
        Option.bind_some, value, back]
      · rfl
      · simp
  · have text := toList_toString_int v.toInt
    rw [if_neg sign, run] at text
    refine Spelling.spells (.word names ?_) text
    have value : (v.toInt.natAbs : Int) = v.toInt := by omega
    rw [wordToken?, if_neg (by simp [isWord, no_letter, no_line]), if_neg (by simp [no_dot]),
      int64?_of_digit first, number, Option.bind_some, value, back]
    · rfl
    · rintro _ _ ⟨⟩
      exact no_dollar rfl

theorem spells_nodeRef (n : UInt32) : Spells Ends ("!" ++ toString n.toNat) [.nodeRef n] :=
  Spelling.spells (.nodeRef (word32?_toString n)) (by simp)

/-! Types. -/

theorem isWord_text (ty : Ty) : isWord ty.text.toList = true := by
  cases ty with
  | void => decide
  | ptr => decide
  | int width =>
    have digits : ∀ d ∈ Nat.toDigits 10 width.toNat, d.isDigit = true := fun d mem =>
      Nat.isDigit_of_mem_toDigits (by decide) (by decide) mem
    rw [Ty.text, String.toList_append, toList_toString_nat]
    have letters : "i".toList = ['i'] := rfl
    simp only [letters, List.cons_append, List.nil_append, isWord, Bool.and_eq_true,
      List.all_eq_true]
    refine ⟨by decide, fun d mem => ?_⟩
    simp [Char.isAlphanum, digits d mem]

theorem spells_ty (ty : Ty) : Spells Ends ty.text [.word ty.text] := spells_word (isWord_text ty)

end BlockTally.Listing
