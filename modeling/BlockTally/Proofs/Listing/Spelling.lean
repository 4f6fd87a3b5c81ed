import BlockTally.Listing.Lexer
import BlockTally.Proofs.Text.Slice
import Mathlib.Data.List.TakeWhile

/-! Which texts are tokens. A spelling is read back as its token wherever it is not run on, and each
token that is read has a spelling. Main statements: `Spelling.headTest`, `spelling_of_tokenAt`. -/
namespace BlockTally.Listing
open Text

/-- What may follow a spelling: the end, or a character that does not run it on. -/
def Ends (post : List Char) : Prop := ∀ c ∈ post.head?, isNameChar c = false ∧ c ≠ ':'

theorem Ends.nil : Ends [] := by simp [Ends]

theorem ends_cons {c : Char} {cs : List Char} (apart : isNameChar c = false ∧ c ≠ ':') :
    Ends (c :: cs) := by
  intro d first
  obtain rfl : c = d := Option.some.inj first
  exact apart

theorem Ends.append {a b : List Char} (first : Ends a) (second : Ends b) : Ends (a ++ b) := by
  cases a with
  | nil => exact second
  | cons c a => exact ends_cons (first c rfl)

/-- A name behind its sigil. -/
inductive NameSpelling : List Char → String → Prop
  | bare {cs : List Char} (some : cs ≠ []) (plain : ∀ c ∈ cs, isNameChar c = true) :
      NameSpelling cs (String.ofList cs)
  | quoted {cs : List Char} (inside : ∀ c ∈ cs, c ≠ '"') :
      NameSpelling ('"' :: (cs ++ ['"'])) (String.ofList cs)

inductive Spelling : List Char → Token → Prop
  | globalName {cs : List Char} {name : String} (named : NameSpelling cs name) :
      Spelling ('@' :: cs) (.globalName name)
  | localName {cs : List Char} {name : String} (named : NameSpelling cs name) :
      Spelling ('%' :: cs) (.localName name)
  | nodeRef {cs : List Char} {node : UInt32} (number : word32? cs = some node) :
      Spelling ('!' :: cs) (.nodeRef node)
  | nodeName {c : Char} {cs : List Char} (letter : c.isDigit = false)
      (plain : ∀ d ∈ c :: cs, isNameChar d = true) :
      Spelling ('!' :: c :: cs) (.nodeName (String.ofList (c :: cs)))
  | bang : Spelling ['!'] (.punct .bang)
  | attrRef {cs : List Char} (some : cs ≠ []) (digits : ∀ c ∈ cs, c.isDigit = true) :
      Spelling ('#' :: cs) .attrRef
  | quotedLabel {cs : List Char} (inside : ∀ c ∈ cs, c ≠ '"') :
      Spelling ('"' :: (cs ++ ['"', ':'])) (.label (String.ofList cs))
  | quoted {cs : List Char} (inside : ∀ c ∈ cs, c ≠ '"') :
      Spelling ('"' :: (cs ++ ['"'])) (.quoted (String.ofList cs))
  | label {c : Char} {cs : List Char} (plain : ∀ d ∈ c :: cs, isNameChar d = true) :
      Spelling (c :: (cs ++ [':'])) (.label (String.ofList (c :: cs)))
  | word {c : Char} {cs : List Char} {t : Token} (plain : ∀ d ∈ c :: cs, isNameChar d = true)
      (known : wordToken? (c :: cs) = some t) : Spelling (c :: cs) t
  | punct {c : Char} {p : Punct} (other : c ≠ '!') (known : Punct.ofChar? c = some p) :
      Spelling [c] (.punct p)

theorem takeWhile_append_iff {α : Type} {p : α → Bool} {a b : List α} (all : ∀ x ∈ a, p x = true) :
    (a ++ b).takeWhile p = a ↔ ∀ x ∈ b.head?, p x = false := by
  rw [List.takeWhile_append_of_pos all]
  cases b with
  | nil => simp
  | cons x b => cases holds : p x <;> simp [holds]

theorem takeWhile_append_stop {α : Type} {p : α → Bool} {a b : List α} (all : ∀ x ∈ a, p x = true)
    (stop : ∀ x ∈ b.head?, p x = false) : (a ++ b).takeWhile p = a :=
  (takeWhile_append_iff all).mpr stop

theorem length_takeWhile_append_iff {α : Type} {p : α → Bool} {a b : List α}
    (all : ∀ x ∈ a, p x = true) :
    ((a ++ b).takeWhile p).length = a.length ↔ (a ++ b).takeWhile p = a := by
  simp [List.takeWhile_append_of_pos all]

theorem dropWhile_stop {α : Type} (p : α → Bool) (l : List α) :
    ∀ x ∈ (l.dropWhile p).head?, p x = false := by
  intro x first
  have stopped := List.head?_dropWhile_not p l
  rw [first] at stopped
  simpa using stopped

theorem isNameChar_of_isDigit {c : Char} (digit : c.isDigit = true) : isNameChar c = true := by
  simp [isNameChar, Char.isAlphanum, digit]

private theorem quotedText?_eq_some {cs text : List Char} : quotedText? cs = some text ↔
    (∀ c ∈ text, c ≠ '"') ∧ ∃ rest, cs = text ++ '"' :: rest := by
  unfold quotedText?
  constructor
  · intro found
    dsimp only at found
    split at found
    · next short =>
      obtain rfl := Option.some.inj found
      have split := List.takeWhile_append_dropWhile (p := (· != '"')) (l := cs)
      refine ⟨fun c mem => by simpa using List.mem_takeWhile_imp mem, ?_⟩
      cases left : cs.dropWhile (· != '"') with
      | nil =>
        rw [left, List.append_nil] at split
        rw [split] at short
        exact absurd short (Nat.lt_irrefl _)
      | cons c rest =>
        have closes : c = '"' := by
          have head := List.head_dropWhile_not (· != '"') (l := cs) (by simp [left])
          simpa [left] using head
        rw [left, closes] at split
        exact ⟨rest, split.symm⟩
    · cases found
  · rintro ⟨inside, rest, rfl⟩
    have whole : (text ++ '"' :: rest).takeWhile (· != '"') = text :=
      takeWhile_append_stop (by simpa using inside) (by simp)
    rw [whole, if_pos (by simp)]

private theorem nameSpelling_of_nameAfter? {cs : List Char} {name : String} {n : Nat}
    (found : nameAfter? cs = some (name, n)) :
    n ≤ cs.length ∧ NameSpelling (cs.take n) name := by
  unfold nameAfter? at found
  split at found
  · next cs =>
    obtain ⟨text, quoted, same⟩ := Option.map_eq_some_iff.mp found
    obtain ⟨inside, rest, rfl⟩ := quotedText?_eq_some.mp quoted
    cases same
    refine ⟨by simp, ?_⟩
    have whole : '"' :: (text ++ '"' :: rest) = '"' :: (text ++ ['"']) ++ rest := by simp
    rw [whole, List.take_left' (by simp)]
    exact .quoted inside
  · dsimp only at found
    split at found
    · cases found
    · next some =>
      cases found
      have front := List.takeWhile_prefix isNameChar (l := cs)
      refine ⟨front.length_le, ?_⟩
      rw [← List.prefix_iff_eq_take.mp front]
      exact .bare (by simpa using some) fun c mem => List.mem_takeWhile_imp mem

theorem digits_of_word32? {cs : List Char} {node : UInt32} (number : word32? cs = some node) :
    cs ≠ [] ∧ ∀ c ∈ cs, c.isDigit = true := by
  obtain ⟨n, digits, -⟩ := Option.bind_eq_some_iff.mp number
  unfold natural? at digits
  split at digits
  · cases digits
  · next all => simpa using all

theorem tokenAt_of_isNameChar {c : Char} (plain : isNameChar c = true) (rest : List Char) :
    tokenAt c rest = if rest[(rest.takeWhile isNameChar).length]? = some ':' then
        some (.label (.ofList (c :: rest.takeWhile isNameChar)),
          (rest.takeWhile isNameChar).length + 1)
      else (wordToken? (c :: rest.takeWhile isNameChar)).map fun t =>
        (t, (rest.takeWhile isNameChar).length) := by
  have other : ∀ d, isNameChar d = false → c ≠ d := by
    intro d apart same
    rw [same, apart] at plain
    cases plain
  simp only [tokenAt, other '@' (by decide), other '%' (by decide), other '!' (by decide),
    other '#' (by decide), other '"' (by decide), plain, if_true, if_false]

theorem nameAfter?_of_isNameChar {c : Char} (plain : isNameChar c = true) (rest : List Char) :
    nameAfter? (c :: rest) = some (.ofList ((c :: rest).takeWhile isNameChar),
      ((c :: rest).takeWhile isNameChar).length) := by
  have unquoted : c ≠ '"' := by
    rintro rfl
    exact absurd plain (by decide)
  rw [nameAfter?.eq_2 _ fun _ quote => unquoted (List.cons.inj quote).1]
  simp [plain]

theorem nameAfter?_quoted {cs : List Char} (inside : ∀ c ∈ cs, c ≠ '"') (post : List Char) :
    nameAfter? ('"' :: (cs ++ ['"']) ++ post) = some (.ofList cs, cs.length + 2) := by
  have found := quotedText?_eq_some.mpr ⟨inside, post, rfl⟩
  simp [nameAfter?, found]

theorem tokenAt_quote {cs : List Char} (inside : ∀ c ∈ cs, c ≠ '"') (post : List Char) :
    tokenAt '"' (cs ++ '"' :: post) = if post.head? = some ':' then
        some (.label (.ofList cs), cs.length + 2)
      else some (.quoted (.ofList cs), cs.length + 1) := by
  have found := quotedText?_eq_some.mpr ⟨inside, post, rfl⟩
  have behind : (cs ++ '"' :: post)[cs.length + 1]? = post.head? := by
    rw [List.getElem?_append_right (Nat.le_succ _), List.head?_eq_getElem?]
    simp
  simp only [tokenAt, found, behind, Option.map_some, Char.reduceEq, if_true, if_false]
  split <;> rfl

theorem tokenAt_label {c : Char} {cs : List Char} (plain : ∀ d ∈ c :: cs, isNameChar d = true)
    (post : List Char) :
    tokenAt c (cs ++ ':' :: post) = some (.label (.ofList (c :: cs)), cs.length + 1) := by
  have name : (cs ++ ':' :: post).takeWhile isNameChar = cs := by
    refine takeWhile_append_stop (fun d mem => plain d (List.mem_cons_of_mem _ mem)) ?_
    simp only [List.head?_cons, Option.mem_some_iff, forall_eq']
    decide
  rw [tokenAt_of_isNameChar (plain c List.mem_cons_self), name]
  simp

theorem isGap_of_isNameChar {c : Char} (plain : isNameChar c = true) :
    isGap c = false ∧ c ≠ ';' := by
  have other : ∀ d, isNameChar d = false → c ≠ d := by
    intro d apart same
    rw [same, apart] at plain
    cases plain
  refine ⟨?_, other ';' (by decide)⟩
  simp [isGap, other ' ' (by decide), other '\t' (by decide), other '\r' (by decide),
    other '\n' (by decide), other '\x0c' (by decide)]

/-! Of what follows a spelling only the first character counts, and only a few characters run a
spelling on. -/

/-- A condition on the text behind a spelling that fails just in front of some of the characters
that `Ends` leaves out. -/
def HeadTest (reads : List Char → Prop) : Prop :=
  ∃ runsOn : Char → Bool, (∀ d, runsOn d = true → isNameChar d = true ∨ d = ':') ∧
    ∀ post, reads post ↔ ∀ d ∈ post.head?, runsOn d = false

namespace HeadTest

variable {reads reads' : List Char → Prop} {post post' : List Char}

theorem of_ends (headTest : HeadTest reads) (ends : Ends post) : reads post := by
  obtain ⟨runsOn, few, reads_iff⟩ := headTest
  refine (reads_iff post).mpr fun d first => Bool.eq_false_iff.mpr fun run => ?_
  obtain ⟨other, not_colon⟩ := ends d first
  rcases few d run with name | colon
  · rw [other] at name
    cases name
  · exact not_colon colon

theorem congr (headTest : HeadTest reads) (same : post'.head? = post.head?)
    (read : reads post) : reads post' := by
  obtain ⟨runsOn, -, reads_iff⟩ := headTest
  rw [reads_iff] at read ⊢
  rwa [same]

private theorem of_iff (headTest : HeadTest reads) (same : ∀ post, reads' post ↔ reads post) :
    HeadTest reads' := by
  obtain ⟨runsOn, few, reads_iff⟩ := headTest
  exact ⟨runsOn, few, fun post => (same post).trans (reads_iff post)⟩

private theorem of_forall (all : ∀ post, reads post) : HeadTest reads :=
  ⟨fun _ => false, by simp, fun post => by simp [all post]⟩

private theorem and (first : HeadTest reads) (second : HeadTest reads') :
    HeadTest fun post => reads post ∧ reads' post := by
  obtain ⟨runsOn, few, reads_iff⟩ := first
  obtain ⟨runsOn', few', reads_iff'⟩ := second
  refine ⟨fun d => runsOn d || runsOn' d, fun d run => ?_, fun post => ?_⟩
  · exact (Bool.or_eq_true_iff.mp run).elim (few d) (few' d)
  · simp only [reads_iff, reads_iff', Bool.or_eq_false_iff]
    exact ⟨fun both d first => ⟨both.1 d first, both.2 d first⟩,
      fun both => ⟨fun d first => (both d first).1, fun d first => (both d first).2⟩⟩

private theorem not_colon : HeadTest fun post => post.head? ≠ some ':' := by
  refine ⟨(· == ':'), fun d colon => .inr (by simpa using colon), fun post => ?_⟩
  cases post <;> simp

private theorem run {p : Char → Bool} {cs : List Char}
    (names : ∀ c, p c = true → isNameChar c = true)
    (plain : ∀ c ∈ cs, p c = true) : HeadTest fun post => (cs ++ post).takeWhile p = cs :=
  ⟨p, fun d holds => .inl (names d holds), fun _ => takeWhile_append_iff plain⟩

end HeadTest

/-- What is read together with the length of its run is told apart by that length alone. -/
theorem map_run_iff {α : Type} {f : List Char → Option α} {x : α} {p : Char → Bool}
    {cs post : List Char} (plain : ∀ c ∈ cs, p c = true) (known : f cs = some x) :
    ((f ((cs ++ post).takeWhile p)).map fun y => (y, ((cs ++ post).takeWhile p).length)) =
      some (x, cs.length) ↔ (cs ++ post).takeWhile p = cs := by
  constructor
  · intro found
    obtain ⟨y, -, pair⟩ := Option.map_eq_some_iff.mp found
    exact (length_takeWhile_append_iff plain).mp (congrArg Prod.snd pair)
  · intro run
    rw [run, known]
    rfl

theorem NameSpelling.headTest {cs : List Char} {name : String} (named : NameSpelling cs name) :
    HeadTest fun post => nameAfter? (cs ++ post) = some (name, cs.length) := by
  cases named with
  | quoted inside =>
    refine .of_forall fun post => ?_
    rw [nameAfter?_quoted inside]
    simp
  | bare some plain =>
    refine (HeadTest.run (fun _ => id) plain).of_iff fun post => ?_
    obtain ⟨c, rest, rfl⟩ := List.exists_cons_of_ne_nil some
    rw [List.cons_append, nameAfter?_of_isNameChar (plain c List.mem_cons_self), ← List.cons_append]
    exact map_run_iff (f := fun run => .some (String.ofList run)) plain rfl

/-- Whether a spelling is read in front of a text hangs on how the text begins. -/
theorem Spelling.headTest {c : Char} {rest : List Char} {t : Token}
    (spelled : Spelling (c :: rest) t) :
    HeadTest fun post => tokenAt c (rest ++ post) = some (t, rest.length) := by
  cases spelled with
  | globalName named | localName named =>
    refine named.headTest.of_iff fun post => ?_
    simp [tokenAt]
  | nodeRef number =>
    obtain ⟨some, digits⟩ := digits_of_word32? number
    refine (HeadTest.run (fun _ => isNameChar_of_isDigit) digits).of_iff fun post => ?_
    have nonempty : (rest ++ post).takeWhile Char.isDigit ≠ [] := by
      simp [List.takeWhile_append_of_pos digits, some]
    rw [← map_run_iff (f := fun run => (word32? run).map Token.nodeRef) digits (by rw [number]; rfl)]
    simp [tokenAt, nodeAfter?, nonempty, Function.comp_def]
  | @nodeName d ds letter plain =>
    refine (HeadTest.run (fun _ => id) plain).of_iff fun post => ?_
    rw [← map_run_iff (f := fun run => some (Token.nodeName (.ofList run))) plain rfl]
    simp [tokenAt, nodeAfter?, letter, plain d List.mem_cons_self]
  | bang =>
    have silent : HeadTest fun post => ([] ++ post).takeWhile isNameChar = [] :=
      .run (fun _ => id) (by simp)
    refine silent.of_iff fun post => ?_
    cases post with
    | nil => simp [tokenAt, nodeAfter?]
    | cons d post =>
      cases digit : d.isDigit with
      | true => simp [tokenAt, nodeAfter?, digit, isNameChar_of_isDigit digit]
      | false => cases name : isNameChar d <;> simp [tokenAt, nodeAfter?, digit, name]
  | attrRef some digits =>
    refine (HeadTest.run (fun _ => isNameChar_of_isDigit) digits).of_iff fun post => ?_
    have nonempty : (rest ++ post).takeWhile Char.isDigit ≠ [] := by
      simp [List.takeWhile_append_of_pos digits, some]
    rw [← map_run_iff (f := fun _ => .some Token.attrRef) digits rfl]
    simp [tokenAt, nonempty]
  | @quotedLabel cs inside =>
    refine .of_forall fun post => ?_
    have closed := tokenAt_quote inside (':' :: post)
    simpa using closed
  | quoted inside =>
    refine HeadTest.not_colon.of_iff fun post => ?_
    simp [tokenAt_quote inside]
  | label plain =>
    refine .of_forall fun post => ?_
    simp [tokenAt_label plain]
  | word plain known =>
    have first := plain c List.mem_cons_self
    have others : ∀ d ∈ rest, isNameChar d = true := fun d mem => plain d (List.mem_cons_of_mem _ mem)
    refine ((HeadTest.run (fun _ => id) others).and HeadTest.not_colon).of_iff fun post => ?_
    have behind : (rest ++ post)[rest.length]? = post.head? := by
      rw [List.getElem?_append_right (Nat.le_refl _), Nat.sub_self, List.head?_eq_getElem?]
    rw [tokenAt_of_isNameChar first]
    constructor
    · intro found
      split at found
      · -- A label would take at least the colon more.
        have size := congrArg Prod.snd (Option.some.inj found)
        rw [List.takeWhile_append_of_pos others, List.length_append] at size
        simp only at size
        omega
      · next no_label =>
        have run := (map_run_iff (f := fun run => wordToken? (c :: run)) others known).mp found
        rw [run, behind] at no_label
        exact ⟨run, no_label⟩
    · rintro ⟨run, no_colon⟩
      rw [run, behind, if_neg no_colon, known]
      rfl
  | punct other known =>
    refine .of_forall fun post => ?_
    unfold Punct.ofChar? at known
    split at known <;> cases known <;> first | exact absurd rfl other | rfl

/-- A spelling opens with no gap and no comment. -/
theorem Spelling.exists_cons {cs : List Char} {t : Token} (spelled : Spelling cs t) :
    ∃ c rest, cs = c :: rest ∧ isGap c = false ∧ c ≠ ';' := by
  cases spelled with
  | label plain | word plain _ =>
    exact ⟨_, _, rfl, isGap_of_isNameChar (plain _ List.mem_cons_self)⟩
  | @punct c _ other known =>
    refine ⟨c, _, rfl, ?_⟩
    unfold Punct.ofChar? at known
    split at known <;> cases known <;>
      first | exact absurd rfl other | exact ⟨by decide, by decide⟩
  | _ => exact ⟨_, _, rfl, by decide, by decide⟩

theorem Spelling.tokenAt_append {cs post : List Char} {t : Token} (spelled : Spelling cs t)
    (ends : Ends post) : ∃ c rest, cs = c :: rest ∧ isGap c = false ∧ c ≠ ';' ∧
      tokenAt c (rest ++ post) = some (t, rest.length) := by
  obtain ⟨c, rest, rfl, solid, code⟩ := spelled.exists_cons
  exact ⟨c, rest, rfl, solid, code, spelled.headTest.of_ends ends⟩

private theorem spelling_of_nodeAfter? {rest : List Char} {t : Token} {n : Nat}
    (found : nodeAfter? rest = some (t, n)) :
    n ≤ rest.length ∧ Spelling ('!' :: rest.take n) t := by
  have digits := List.takeWhile_prefix Char.isDigit (l := rest)
  have name := List.takeWhile_prefix isNameChar (l := rest)
  unfold nodeAfter? at found
  dsimp only at found
  split at found
  · next some =>
    obtain ⟨node, number, same⟩ := Option.map_eq_some_iff.mp found
    cases same
    refine ⟨digits.length_le, ?_⟩
    rw [← List.prefix_iff_eq_take.mp digits]
    exact .nodeRef number
  · next no_digits =>
    split at found
    · next some =>
      cases found
      refine ⟨name.length_le, ?_⟩
      rw [← List.prefix_iff_eq_take.mp name]
      have nonempty : rest.takeWhile isNameChar ≠ [] := by
        intro empty
        rw [empty] at some
        exact absurd some (by decide)
      obtain ⟨c, cs, run⟩ := List.exists_cons_of_ne_nil nonempty
      have plain : ∀ d ∈ c :: cs, isNameChar d = true := by
        rw [← run]
        exact fun d mem => List.mem_takeWhile_imp mem
      rw [run]
      refine .nodeName ?_ plain
      obtain ⟨more, whole⟩ := name
      rw [run] at whole
      rw [← whole] at no_digits
      simpa using no_digits
    · cases found
      exact ⟨Nat.zero_le _, .bang⟩

private theorem spelling_of_run {c : Char} {rest : List Char} {t : Token} {n : Nat}
    (plain : isNameChar c = true) (found : tokenAt c rest = some (t, n)) :
    n ≤ rest.length ∧ Spelling (c :: rest.take n) t := by
  have front := List.takeWhile_prefix isNameChar (l := rest)
  have run : ∀ d ∈ c :: rest.takeWhile isNameChar, isNameChar d = true := by
    intro d mem
    rcases List.mem_cons.mp mem with rfl | mem
    · exact plain
    · exact List.mem_takeWhile_imp mem
  rw [tokenAt_of_isNameChar plain] at found
  split at found
  · next colon =>
    cases found
    have inside := (List.getElem?_eq_some_iff.mp colon).1
    refine ⟨inside, ?_⟩
    rw [List.take_add_one, colon, ← List.prefix_iff_eq_take.mp front]
    exact .label run
  · obtain ⟨t, known, same⟩ := Option.map_eq_some_iff.mp found
    cases same
    refine ⟨front.length_le, ?_⟩
    rw [← List.prefix_iff_eq_take.mp front]
    exact .word run known

private theorem spelling_of_quote {rest : List Char} {t : Token} {n : Nat}
    (found : tokenAt '"' rest = some (t, n)) :
    n ≤ rest.length ∧ Spelling ('"' :: rest.take n) t := by
  obtain ⟨text, quoted⟩ : ∃ text, quotedText? rest = some text := by
    cases quoted : quotedText? rest with
    | none => simp [tokenAt, quoted] at found
    | some text => exact ⟨text, rfl⟩
  obtain ⟨inside, more, rfl⟩ := quotedText?_eq_some.mp quoted
  rw [tokenAt_quote inside] at found
  split at found
  · next colon =>
    cases found
    obtain ⟨after, rfl⟩ : ∃ after, more = ':' :: after := by
      cases more with
      | nil => cases colon
      | cons d after => exact ⟨after, by rw [Option.some.inj colon]⟩
    have whole : text ++ '"' :: ':' :: after = text ++ ['"', ':'] ++ after := by simp
    rw [whole, List.take_left' (by simp)]
    exact ⟨by simp, .quotedLabel inside⟩
  · cases found
    have whole : text ++ '"' :: more = text ++ ['"'] ++ more := by simp
    rw [whole, List.take_left' (by simp)]
    exact ⟨by simp, .quoted inside⟩

theorem spelling_of_tokenAt {c : Char} {rest : List Char} {t : Token} {n : Nat}
    (found : tokenAt c rest = some (t, n)) :
    n ≤ rest.length ∧ Spelling (c :: rest.take n) t := by
  by_cases plain : isNameChar c = true
  · exact spelling_of_run plain found
  by_cases quote : c = '"'
  · exact quote ▸ spelling_of_quote (quote ▸ found)
  simp only [tokenAt, plain, quote, if_false, Bool.false_eq_true] at found
  split at found
  · next sigil =>
    obtain ⟨⟨name, k⟩, named, same⟩ := Option.map_eq_some_iff.mp found
    cases same
    obtain ⟨inside, spelled⟩ := nameSpelling_of_nameAfter? named
    exact ⟨inside, sigil ▸ .globalName spelled⟩
  split at found
  · next sigil =>
    obtain ⟨⟨name, k⟩, named, same⟩ := Option.map_eq_some_iff.mp found
    cases same
    obtain ⟨inside, spelled⟩ := nameSpelling_of_nameAfter? named
    exact ⟨inside, sigil ▸ .localName spelled⟩
  split at found
  · next sigil => exact sigil ▸ spelling_of_nodeAfter? found
  next not_bang =>
  split at found
  · next sigil =>
    split at found
    · cases found
    · next some =>
      cases found
      have front := List.takeWhile_prefix Char.isDigit (l := rest)
      refine ⟨front.length_le, ?_⟩
      rw [← List.prefix_iff_eq_take.mp front]
      exact sigil ▸ .attrRef (by simpa using some) fun d mem => List.mem_takeWhile_imp mem
  · obtain ⟨p, known, same⟩ := Option.map_eq_some_iff.mp found
    cases same
    exact ⟨Nat.zero_le _, .punct not_bang known⟩

end BlockTally.Listing
