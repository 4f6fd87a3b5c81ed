import BlockTally.Proofs.Listing.Spells
import Mathlib.Data.Nat.Find

/-! The patterns of tokens, apart from how they are looked for. The longest text that fits a pattern
wins, but a run of name characters is never cut. Main statements: `Longest.tokenAt`,
`longest_of_tokenAt`. -/
namespace BlockTally.Listing
open Text

/-- The sign before the name of a symbol or of a value. -/
inductive Sigil where
  | symbol | value

def Sigil.char : Sigil → Char
  | .symbol => '@'
  | .value => '%'

def Sigil.token : Sigil → String → Token
  | .symbol => .globalName
  | .value => .localName

inductive Pattern where
  | name (sigil : Sigil)
  | quotedName (sigil : Sigil)
  | label
  | quotedLabel
  | nodeRef
  | nodeName
  | attrRef
  | comdatRef
  | word
  | int
  | quoted
  | punct (p : Punct)

/-- Some of these characters, and nothing else. -/
def Run (p : Char → Bool) (cs : List Char) : Prop := cs ≠ [] ∧ ∀ c ∈ cs, p c = true

/-- Which texts a pattern is for. -/
inductive Pattern.Fits : Pattern → List Char → Prop
  | name (sigil : Sigil) {cs : List Char} (run : Run isNameChar cs) :
      Fits (.name sigil) (sigil.char :: cs)
  | quotedName (sigil : Sigil) {cs : List Char} (inside : ∀ c ∈ cs, c ≠ '"') :
      Fits (.quotedName sigil) (sigil.char :: '"' :: (cs ++ ['"']))
  | label {cs : List Char} (run : Run isNameChar cs) : Fits .label (cs ++ [':'])
  | quotedLabel {cs : List Char} (inside : ∀ c ∈ cs, c ≠ '"') :
      Fits .quotedLabel ('"' :: (cs ++ ['"', ':']))
  | nodeRef {cs : List Char} (run : Run Char.isDigit cs) : Fits .nodeRef ('!' :: cs)
  | nodeName {c : Char} {cs : List Char} (letter : c.isDigit = false)
      (run : Run isNameChar (c :: cs)) : Fits .nodeName ('!' :: c :: cs)
  | attrRef {cs : List Char} (run : Run Char.isDigit cs) : Fits .attrRef ('#' :: cs)
  | comdatRef {cs : List Char} (run : Run isNameChar cs) : Fits .comdatRef ('$' :: cs)
  | word {c : Char} {cs : List Char} (first : c.isAlpha = true ∨ c = '_')
      (more : ∀ d ∈ cs, d.isAlphanum = true ∨ d = '_' ∨ d = '.') : Fits .word (c :: cs)
  | int {cs : List Char} (run : Run Char.isDigit cs) : Fits .int cs
  | negative {cs : List Char} (run : Run Char.isDigit cs) : Fits .int ('-' :: cs)
  | quoted {cs : List Char} (inside : ∀ c ∈ cs, c ≠ '"') : Fits .quoted ('"' :: (cs ++ ['"']))
  | punct (p : Punct) : Fits (.punct p) p.text.toList

/-- The text between the quotes. -/
def unquoted (cs : List Char) : String := .ofList cs.tail.dropLast

/-- Decimal digits, the first of which counts most. -/
def decimal (cs : List Char) : Nat := Nat.ofDigitChars 10 cs 0

/-- A minus sign may stand before the digits. -/
def signed : List Char → Int
  | '-' :: cs => -decimal cs
  | cs => decimal cs

def refToken? (n : Nat) : Option Token :=
  if n < UInt32.size then some (.nodeRef (.ofNat n)) else none

def intToken? (n : Int) : Option Token :=
  if Int64.minValue.toInt ≤ n ∧ n ≤ Int64.maxValue.toInt then some (.int (.ofInt n)) else none

/-- The token that a text is by a pattern that it fits; `none` for numbers out of range. -/
def Pattern.token? : Pattern → List Char → Option Token
  | .name sigil, cs => some (sigil.token (.ofList cs.tail))
  | .quotedName sigil, cs => some (sigil.token (unquoted cs.tail))
  | .label, cs => some (.label (.ofList cs.dropLast))
  | .quotedLabel, cs => some (.label (unquoted cs.dropLast))
  | .nodeRef, cs => refToken? (decimal cs.tail)
  | .nodeName, cs => some (.nodeName (.ofList cs.tail))
  | .attrRef, _ => some .attrRef
  | .comdatRef, _ => some .comdatRef
  | .word, cs => some (.word (.ofList cs))
  | .int, cs => intToken? (signed cs)
  | .quoted, cs => some (.quoted (unquoted cs))
  | .punct p, _ => some (.punct p)

/-- A token that stands before `post`: no longer one begins at the same place, and no run of name
characters that begins there goes on behind it. -/
structure Longest (text post : List Char) : Prop where
  fits : ∃ k : Pattern, k.Fits text
  longest : ∀ (k : Pattern) front back, front ++ back = text ++ post → k.Fits front →
    front.length ≤ text.length
  uncut : ((text ++ post).takeWhile isNameChar).length ≤ text.length

section
variable {text post cs : List Char} {k : Pattern} {p : Char → Bool}

theorem Run.snoc {c : Char} (run : Run p cs) (holds : p c = true) : Run p (cs ++ [c]) := by
  refine ⟨List.append_ne_nil_of_right_ne_nil _ (List.cons_ne_nil c []), fun d mem => ?_⟩
  rcases List.mem_append.mp mem with old | new
  · exact run.2 d old
  · rwa [List.mem_singleton.mp new]

theorem Run.isEmpty (run : Run p cs) : cs.isEmpty = false := by simpa using run.1

theorem Run.takeWhile (run : Run p cs) (stop : ∀ c ∈ post.head?, p c = false) :
    (cs ++ post).takeWhile p = cs := takeWhile_append_stop run.2 stop

theorem Run.natural? (run : Run Char.isDigit cs) : natural? cs = some (decimal cs) := by
  have digits : cs.all Char.isDigit = true := List.all_eq_true.mpr run.2
  simp [Text.natural?, run.1, digits, decimal]

/-! Numbers. -/

private theorem refToken?_eq (n : Nat) : refToken? n = (word32OfInt? n).map .nodeRef := by
  unfold refToken? word32OfInt?
  by_cases small : n < UInt32.size
  · rw [if_pos small, if_pos ⟨Int.natCast_nonneg n, small⟩]
    rfl
  · rw [if_neg small, if_neg fun both => small both.2]
    rfl

private theorem intToken?_eq (n : Int) : intToken? n = (int64OfInt? n).map .int := by
  unfold intToken? int64OfInt?
  split <;> rfl

private theorem wordToken?_int (fits : Pattern.int.Fits cs) :
    wordToken? cs = intToken? (signed cs) := by
  cases fits with
  | int run =>
    obtain ⟨c, ds, rfl⟩ := List.exists_cons_of_ne_nil run.1
    have digit := run.2 c List.mem_cons_self
    obtain ⟨no_letter, no_line, no_dot, no_dollar, no_minus⟩ := not_letter_of_isDigit digit
    have value : signed (c :: ds) = decimal (c :: ds) := by
      unfold signed
      split
      · rename_i same
        exact absurd (List.cons.inj same).1 no_minus
      · rfl
    rw [wordToken?, if_neg (by simp [isWord, no_letter, no_line]), if_neg (by simp [no_dot]),
      int64?_of_digit digit, run.natural?, value, intToken?_eq]
    · rfl
    · rintro _ _ ⟨⟩
      exact no_dollar rfl
  | negative run =>
    rw [wordToken?, if_neg (by simp [isWord]), if_neg (by simp), int64?, run.natural?, signed,
      intToken?_eq]
    · rfl
    · simp

private theorem isNameChar_of_letter {c : Char} (letter : c.isAlpha = true ∨ c = '_') :
    isNameChar c = true := by
  rcases letter with letter | rfl
  · simp [isNameChar, Char.isAlphanum, letter]
  · decide

private theorem isNameChar_of_word {c : Char} (part : c.isAlphanum = true ∨ c = '_' ∨ c = '.') :
    isNameChar c = true := by
  rcases part with part | rfl | rfl
  · simp [isNameChar, part]
  · decide
  · decide

private theorem wordToken?_word (fits : Pattern.word.Fits cs) :
    wordToken? cs = some (.word (.ofList cs)) := by
  cases fits with
  | @word c ds first more =>
    have letters : isWord (c :: ds) = true := by simpa [isWord, or_assoc] using ⟨first, more⟩
    unfold wordToken?
    rw [if_pos letters]

private theorem wordToken?_comdatRef (fits : Pattern.comdatRef.Fits cs) :
    wordToken? cs = some .comdatRef := by
  cases fits with
  | comdatRef run =>
    obtain ⟨c, ds, rfl⟩ := List.exists_cons_of_ne_nil run.1
    rw [wordToken?, if_neg (by simp [isWord]), if_neg (by simp)]

/-- What follows does not run the token on. -/
theorem Longest.stops (longest : Longest text post)
    (longer : ∀ c, p c = true → ∃ k : Pattern, k.Fits (text ++ [c])) :
    ∀ c ∈ post.head?, p c = false := by
  intro c first
  obtain ⟨rest, rfl⟩ := List.head?_eq_some_iff.mp first
  by_contra holds
  obtain ⟨k, fits⟩ := longer c (by simpa using holds)
  have size := longest.longest k (text ++ [c]) rest (by simp) fits
  rw [List.length_append, List.length_singleton] at size
  omega

theorem Longest.no_colon (longest : Longest text post)
    (longer : ∃ k : Pattern, k.Fits (text ++ [':'])) : post.head? ≠ some ':' := by
  intro colon
  have stop := longest.stops (p := (· == ':')) fun c same => by rwa [eq_of_beq same]
  simpa using stop ':' colon

/-- A run of name characters is taken as a whole. -/
theorem Longest.tokenAt_run {c : Char} {more : List Char} (longest : Longest (c :: more) post)
    (plain : ∀ d ∈ c :: more, isNameChar d = true) :
    tokenAt c (more ++ post) = (wordToken? (c :: more)).map fun t => (t, more.length) := by
  have others : ∀ d ∈ more, isNameChar d = true := fun d mem => plain d (List.mem_cons_of_mem _ mem)
  have size : ((c :: more ++ post).takeWhile isNameChar).length = (c :: more).length := by
    refine Nat.le_antisymm longest.uncut ?_
    rw [List.takeWhile_append_of_pos plain, List.length_append]
    exact Nat.le_add_right _ _
  have stop := (takeWhile_append_iff plain).mp ((length_takeWhile_append_iff plain).mp size)
  have no_colon := longest.no_colon ⟨.label, .label ⟨List.cons_ne_nil c more, plain⟩⟩
  have run := takeWhile_append_stop others stop
  have behind : (more ++ post)[more.length]? = post.head? := by
    rw [List.getElem?_append_right (Nat.le_refl _), Nat.sub_self, List.head?_eq_getElem?]
  rw [tokenAt_of_isNameChar (plain c List.mem_cons_self), run, behind, if_neg no_colon]

/-! Names. -/

private theorem tokenAt_sigil (sigil : Sigil) (rest : List Char) :
    tokenAt sigil.char rest = (nameAfter? rest).map fun (name, n) => (sigil.token name, n) := by
  cases sigil <;> rfl

private theorem nameAfter?_run (run : Run isNameChar cs)
    (stop : ∀ c ∈ post.head?, isNameChar c = false) :
    nameAfter? (cs ++ post) = some (.ofList cs, cs.length) := by
  obtain ⟨c, rest, rfl⟩ := List.exists_cons_of_ne_nil run.1
  rw [List.cons_append, nameAfter?_of_isNameChar (run.2 c List.mem_cons_self), ← List.cons_append,
    run.takeWhile stop]

/-- Quotes around a text. -/
theorem unquoted_quoted (cs : List Char) : unquoted ('"' :: (cs ++ ['"'])) = .ofList cs := by
  simp [unquoted]

/-! Marks. -/

private theorem nodeAfter?_digits (run : Run Char.isDigit cs)
    (stop : ∀ c ∈ post.head?, c.isDigit = false) :
    nodeAfter? (cs ++ post) = (refToken? (decimal cs)).map fun t => (t, cs.length) := by
  have number : word32? cs = word32OfInt? (decimal cs) := by
    rw [word32?, run.natural?]
    rfl
  simp only [nodeAfter?, run.takeWhile stop, run.isEmpty, number, refToken?_eq, Option.map_map]
  rfl

private theorem nodeAfter?_name {c : Char} {cs : List Char} (letter : c.isDigit = false)
    (run : Run isNameChar (c :: cs)) (stop : ∀ c ∈ post.head?, isNameChar c = false) :
    nodeAfter? (c :: cs ++ post) = some (.nodeName (.ofList (c :: cs)), cs.length + 1) := by
  have no_digits : (c :: cs ++ post).takeWhile Char.isDigit = [] := by simp [letter]
  unfold nodeAfter?
  dsimp only
  rw [no_digits, run.takeWhile stop]
  rfl

private theorem no_digit_of_no_name (stop : ∀ c ∈ post.head?, isNameChar c = false) :
    ∀ c ∈ post.head?, c.isDigit = false := by
  intro c first
  cases digit : c.isDigit with
  | false => rfl
  | true => rw [← stop c first, isNameChar_of_isDigit digit]

private theorem nodeAfter?_nothing (stop : ∀ c ∈ post.head?, isNameChar c = false) :
    nodeAfter? post = some (.punct .bang, 0) := by
  have no_name := takeWhile_append_stop (a := []) (by simp) stop
  have no_digits := takeWhile_append_stop (a := []) (by simp) (no_digit_of_no_name stop)
  simp only [List.nil_append] at no_digits no_name
  simp [nodeAfter?, no_digits, no_name]

theorem Longest.tokenAt_punct {c : Char} {more : List Char} {p : Punct}
    (longest : Longest (c :: more) post) (text : c :: more = p.text.toList) :
    tokenAt c (more ++ post) = some (.punct p, more.length) := by
  cases p
  case bang =>
    obtain ⟨rfl, rfl⟩ := List.cons.inj text
    have stop := longest.stops (p := isNameChar) fun d plain => by
      have run : Run isNameChar [d] := ⟨List.cons_ne_nil d [], by simpa using plain⟩
      cases digit : d.isDigit with
      | true => exact ⟨_, .nodeRef ⟨List.cons_ne_nil d [], by simpa using digit⟩⟩
      | false => exact ⟨_, .nodeName digit run⟩
    exact nodeAfter?_nothing stop
  case ellipsis =>
    obtain ⟨rfl, rfl⟩ := List.cons.inj text
    rw [longest.tokenAt_run (by decide)]
    rfl
  all_goals
    obtain ⟨rfl, rfl⟩ := List.cons.inj text
    rfl

private theorem unquoted_label (cs : List Char) :
    unquoted ('"' :: (cs ++ ['"', ':'])).dropLast = .ofList cs := by
  have whole : '"' :: (cs ++ ['"', ':']) = '"' :: (cs ++ ['"']) ++ [':'] := by simp
  rw [whole, List.dropLast_concat, unquoted_quoted]

/-- The token that stands at a place is that of the longest text. -/
theorem Longest.tokenAt {c : Char} {more : List Char} (longest : Longest (c :: more) post)
    (fits : k.Fits (c :: more)) :
    tokenAt c (more ++ post) = (k.token? (c :: more)).map fun t => (t, more.length) := by
  generalize whole : c :: more = text at fits
  have known := fits
  cases fits with
  | name sigil run =>
    obtain ⟨rfl, rfl⟩ := List.cons.inj whole
    have stop := longest.stops fun d plain => ⟨_, .name sigil (run.snoc plain)⟩
    rw [tokenAt_sigil, nameAfter?_run run stop]
    rfl
  | quotedName sigil inside =>
    obtain ⟨rfl, rfl⟩ := List.cons.inj whole
    rw [tokenAt_sigil, nameAfter?_quoted inside, Pattern.token?, List.tail_cons, unquoted_quoted]
    simp
  | @label cs run =>
    obtain ⟨d, ds, rfl⟩ := List.exists_cons_of_ne_nil run.1
    rw [List.cons_append, List.cons.injEq] at whole
    obtain ⟨rfl, rfl⟩ := whole
    rw [List.append_assoc, List.singleton_append, tokenAt_label run.2, Pattern.token?,
      List.dropLast_concat]
    simp
  | quotedLabel inside =>
    obtain ⟨rfl, rfl⟩ := List.cons.inj whole
    have colon : ([':'] ++ post).head? = some ':' := rfl
    rw [List.append_assoc, List.cons_append, tokenAt_quote inside, if_pos colon, Pattern.token?,
      unquoted_label]
    simp
  | nodeRef run =>
    obtain ⟨rfl, rfl⟩ := List.cons.inj whole
    exact nodeAfter?_digits run (longest.stops fun d digit => ⟨_, .nodeRef (run.snoc digit)⟩)
  | nodeName letter run =>
    obtain ⟨rfl, rfl⟩ := List.cons.inj whole
    exact nodeAfter?_name letter run
      (longest.stops fun d plain => ⟨_, .nodeName letter (run.snoc plain)⟩)
  | attrRef run =>
    obtain ⟨rfl, rfl⟩ := List.cons.inj whole
    have stop := longest.stops fun d digit => ⟨_, .attrRef (run.snoc digit)⟩
    simp [Listing.tokenAt, run.takeWhile stop, run.1, Pattern.token?]
  | quoted inside =>
    obtain ⟨rfl, rfl⟩ := List.cons.inj whole
    have no_colon := longest.no_colon ⟨_, by simpa using .quotedLabel inside⟩
    rw [List.append_assoc, List.cons_append, List.nil_append, tokenAt_quote inside, if_neg no_colon,
      Pattern.token?, unquoted_quoted]
    simp
  | punct p => exact longest.tokenAt_punct whole
  | comdatRef run =>
    obtain ⟨rfl, rfl⟩ := List.cons.inj whole
    have plain : ∀ d ∈ '$' :: more, isNameChar d = true :=
      List.forall_mem_cons.mpr ⟨by decide, run.2⟩
    rw [longest.tokenAt_run plain, wordToken?_comdatRef known, Pattern.token?]
  | word first others =>
    obtain ⟨rfl, rfl⟩ := List.cons.inj whole
    have plain : ∀ d ∈ c :: more, isNameChar d = true :=
      List.forall_mem_cons.mpr ⟨isNameChar_of_letter first, fun d mem =>
        isNameChar_of_word (others d mem)⟩
    rw [longest.tokenAt_run plain, wordToken?_word known, Pattern.token?]
  | int run =>
    subst whole
    rw [longest.tokenAt_run fun d mem => isNameChar_of_isDigit (run.2 d mem), wordToken?_int known,
      Pattern.token?]
  | negative run =>
    obtain ⟨rfl, rfl⟩ := List.cons.inj whole
    have plain : ∀ d ∈ '-' :: more, isNameChar d = true :=
      List.forall_mem_cons.mpr ⟨by decide, fun d mem => isNameChar_of_isDigit (run.2 d mem)⟩
    rw [longest.tokenAt_run plain, wordToken?_int known, Pattern.token?]

/-! Which token is found is known from the pattern; that one is found is known from its spelling. -/

private theorem fits_of_natural? {n : Nat} (number : Text.natural? cs = some n) :
    Run Char.isDigit cs := by
  unfold Text.natural? at number
  split at number
  · cases number
  · rename_i digits
    simpa [Run] using digits

private theorem fits_of_wordToken? {t : Token} (plain : ∀ c ∈ cs, isNameChar c = true)
    (known : wordToken? cs = some t) : ∃ k : Pattern, k.Fits cs := by
  unfold wordToken? at known
  split at known
  · rename_i letters
    cases cs with
    | nil => cases letters
    | cons c cs =>
      simp only [isWord, Bool.and_eq_true, Bool.or_eq_true, beq_iff_eq, List.all_eq_true] at letters
      exact ⟨.word, .word letters.1 fun d mem => or_assoc.mp (letters.2 d mem)⟩
  split at known
  · rename_i dots
    exact ⟨.punct .ellipsis, dots ▸ .punct .ellipsis⟩
  split at known
  · exact ⟨.comdatRef, .comdatRef ⟨List.cons_ne_nil _ _, (List.forall_mem_cons.mp plain).2⟩⟩
  · obtain ⟨value, number, -⟩ := Option.map_eq_some_iff.mp known
    unfold int64? at number
    split at number
    · obtain ⟨n, digits, -⟩ := Option.bind_eq_some_iff.mp number
      exact ⟨.int, .negative (fits_of_natural? digits)⟩
    · obtain ⟨n, digits, -⟩ := Option.bind_eq_some_iff.mp number
      exact ⟨.int, .int (fits_of_natural? digits)⟩

private theorem fits_of_name {name : String} (sigil : Sigil) (named : NameSpelling cs name) :
    ∃ k : Pattern, k.Fits (sigil.char :: cs) := by
  cases named with
  | bare some plain => exact ⟨_, .name sigil ⟨some, plain⟩⟩
  | quoted inside => exact ⟨_, .quotedName sigil inside⟩

private theorem text_of_ofChar? {c : Char} {p : Punct} (known : Punct.ofChar? c = some p) :
    p.text.toList = [c] := by
  unfold Punct.ofChar? at known
  split at known <;> cases known <;> rfl

theorem Spelling.fits {t : Token} (spelled : Spelling text t) : ∃ k : Pattern, k.Fits text := by
  cases spelled with
  | globalName named => exact fits_of_name .symbol named
  | localName named => exact fits_of_name .value named
  | nodeRef number => exact ⟨_, .nodeRef (digits_of_word32? number)⟩
  | nodeName letter plain => exact ⟨_, .nodeName letter ⟨List.cons_ne_nil _ _, plain⟩⟩
  | bang => exact ⟨_, .punct .bang⟩
  | attrRef some digits => exact ⟨_, .attrRef ⟨some, digits⟩⟩
  | quotedLabel inside => exact ⟨_, .quotedLabel inside⟩
  | quoted inside => exact ⟨_, .quoted inside⟩
  | label plain => exact ⟨_, .label ⟨List.cons_ne_nil _ _, plain⟩⟩
  | word plain known => exact fits_of_wordToken? plain known
  | @punct c p _ known => exact ⟨.punct p, text_of_ofChar? known ▸ .punct p⟩

/-- Among the texts that fit a pattern there is a longest one. -/
theorem exists_longest {front back : List Char} (fits : k.Fits front)
    (reaches : ((front ++ back).takeWhile isNameChar).length ≤ front.length) :
    ∃ text post, front ++ back = text ++ post ∧ front.length ≤ text.length ∧
      Longest text post := by
  classical
  let fitting (n : Nat) : Prop := ∃ k : Pattern, k.Fits ((front ++ back).take n)
  have inside : front.length ≤ (front ++ back).length := by simp
  have here : fitting front.length := ⟨k, by rwa [List.take_left]⟩
  obtain ⟨n, bound, most, greatest⟩ : ∃ n, n ≤ (front ++ back).length ∧ fitting n ∧
      ∀ m, m ≤ (front ++ back).length → fitting m → m ≤ n :=
    ⟨_, Nat.findGreatest_le _, Nat.findGreatest_spec inside here, fun _ => Nat.le_findGreatest⟩
  have size : ((front ++ back).take n).length = n := by rw [List.length_take, Nat.min_eq_left bound]
  have least := greatest _ inside here
  have whole := List.take_append_drop n (front ++ back)
  refine ⟨_, _, whole.symm, by rwa [size], ⟨most, fun j front' back' split fits' => ?_, ?_⟩⟩
  · rw [whole] at split
    rw [size]
    refine greatest _ (by simp [← split]) ⟨j, ?_⟩
    rwa [← split, List.take_left]
  · rw [whole, size]
    exact reaches.trans least

/-- A token that is found reaches the end of a run that begins with it. -/
theorem reaches_of_tokenAt {c : Char} {rest : List Char} {t : Token} {n : Nat}
    (found : tokenAt c rest = some (t, n)) :
    ((c :: rest).takeWhile isNameChar).length ≤ n + 1 := by
  by_cases plain : isNameChar c = true
  · rw [tokenAt_of_isNameChar plain] at found
    rw [List.takeWhile_cons_of_pos plain, List.length_cons]
    split at found
    · have size := congrArg Prod.snd (Option.some.inj found)
      simp only at size
      omega
    · obtain ⟨_, -, same⟩ := Option.map_eq_some_iff.mp found
      have size := congrArg Prod.snd same
      simp only at size
      omega
  · rw [List.takeWhile_cons_of_neg plain]
    exact Nat.zero_le _

theorem longest_of_tokenAt {c : Char} {rest : List Char} {t : Token} {n : Nat}
    (found : tokenAt c rest = some (t, n)) :
    Longest (c :: rest.take n) (rest.drop n) ∧
      ∀ k : Pattern, k.Fits (c :: rest.take n) → k.token? (c :: rest.take n) = some t := by
  obtain ⟨inside, spelled⟩ := spelling_of_tokenAt found
  obtain ⟨k, fits⟩ := spelled.fits
  have whole : c :: rest.take n ++ rest.drop n = c :: rest := by simp
  have length : (c :: rest.take n).length = n + 1 := by simp [inside]
  have reaches : ((c :: rest.take n ++ rest.drop n).takeWhile isNameChar).length ≤
      (c :: rest.take n).length := by
    rw [whole, length]
    exact reaches_of_tokenAt found
  obtain ⟨text, post, split, size, longest⟩ := exists_longest fits reaches
  obtain ⟨d, more, rfl⟩ := List.exists_cons_of_length_pos (l := text) (by omega)
  rw [whole, List.cons_append, List.cons.injEq] at split
  obtain ⟨rfl, rest_eq⟩ := split
  -- The longest text decides what is found, so that it is the text that was found.
  have taken : ∀ j : Pattern, j.Fits (c :: more) →
      (j.token? (c :: more)).map (fun t => (t, more.length)) = some (t, n) := fun j fits => by
    rw [← longest.tokenAt fits, ← rest_eq, found]
  obtain ⟨j, fits⟩ := longest.fits
  obtain ⟨_, -, same⟩ := Option.map_eq_some_iff.mp (taken j fits)
  obtain rfl : more.length = n := congrArg Prod.snd same
  rw [rest_eq, List.take_left, List.drop_left]
  refine ⟨longest, fun k fits => ?_⟩
  obtain ⟨u, known, same⟩ := Option.map_eq_some_iff.mp (taken k fits)
  obtain rfl : u = t := congrArg Prod.fst same
  exact known

/-! Where no token is found. -/

/-- A quote opens, alone or behind a sigil, and does not close. -/
def Unclosed (cs : List Char) : Prop :=
  ∃ text, (∀ c ∈ text, c ≠ '"') ∧
    (cs = '"' :: text ∨ ∃ sigil : Sigil, cs = sigil.char :: '"' :: text)

/-- Why no token begins here: nothing fits a pattern, a quote does not close, no token reaches the end
of a run of name characters, or a number is out of range. -/
inductive Obstacle : List Char → Prop
  | unmatched {cs : List Char} (closed : ¬ Unclosed cs)
      (none : ∀ (k : Pattern) front back, front ++ back = cs → ¬ k.Fits front) : Obstacle cs
  | unclosed {cs : List Char} (unclosed : Unclosed cs) : Obstacle cs
  | run {cs post : List Char} (run : Run isNameChar cs)
      (ends : ∀ c ∈ post.head?, isNameChar c = false)
      (none : ∀ (k : Pattern) front back, front ++ back = cs ++ post → cs.length ≤ front.length →
        ¬ k.Fits front) : Obstacle (cs ++ post)
  | outOfRange {k : Pattern} {text post : List Char} (number : k = .nodeRef ∨ k = .int)
      (longest : Longest text post) (fits : k.Fits text) (none : k.token? text = none) :
      Obstacle (text ++ post)

private theorem number_of_token? (none : k.token? text = none) : k = .nodeRef ∨ k = .int := by
  cases k with
  | nodeRef => exact .inl rfl
  | int => exact .inr rfl
  | _ => cases none

theorem Pattern.Fits.ne_nil (fits : k.Fits text) : text ≠ [] := by
  cases fits with
  | int run => exact run.1
  | punct p => cases p <;> decide
  | _ => simp

theorem token?_of_tokenAt {c : Char} {rest : List Char} (missing : tokenAt c rest = none)
    (split : c :: rest = text ++ post) (longest : Longest text post) (fits : k.Fits text) :
    k.token? text = none := by
  obtain ⟨d, more, rfl⟩ := List.exists_cons_of_ne_nil fits.ne_nil
  rw [List.cons_append, List.cons.injEq] at split
  obtain ⟨rfl, rfl⟩ := split
  have same := longest.tokenAt fits
  rw [missing, eq_comm, Option.map_eq_none_iff] at same
  exact same

theorem obstacle_of_tokenAt {c : Char} {rest : List Char} (missing : tokenAt c rest = none) :
    Obstacle (c :: rest) := by
  by_cases some : ∃ text post, c :: rest = text ++ post ∧ Longest text post
  · obtain ⟨text, post, split, longest⟩ := some
    obtain ⟨k, fits⟩ := longest.fits
    have none := token?_of_tokenAt missing split longest fits
    exact split ▸ .outOfRange (number_of_token? none) longest fits none
  -- A text that fits and reaches the end of the run would give a longest one.
  have short : ∀ (k : Pattern) front back, front ++ back = c :: rest →
      ((c :: rest).takeWhile isNameChar).length ≤ front.length → ¬ k.Fits front := by
    intro k front back split reaches fits
    obtain ⟨text, post, split', -, longest⟩ := exists_longest fits (split ▸ reaches)
    exact some ⟨text, post, split ▸ split', longest⟩
  by_cases plain : isNameChar c = true
  · have whole := List.takeWhile_append_dropWhile (p := isNameChar) (l := c :: rest)
    have run : Run isNameChar ((c :: rest).takeWhile isNameChar) :=
      ⟨by simp [plain], fun d mem => List.mem_takeWhile_imp mem⟩
    have obstacle := Obstacle.run run (dropWhile_stop isNameChar _) fun k front back split =>
      short k front back (by rw [split, whole])
    rwa [whole] at obstacle
  · have none : ∀ (k : Pattern) front back, front ++ back = c :: rest → ¬ k.Fits front :=
      fun k front back split => short k front back split (by simp [plain])
    by_cases closed : Unclosed (c :: rest)
    · exact .unclosed closed
    · exact .unmatched closed none

end

end BlockTally.Listing
