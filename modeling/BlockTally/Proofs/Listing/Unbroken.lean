import BlockTally.Proofs.Listing.Entries

/-! The text of a line by itself. A line has tokens of its own if no token of the text runs over its
end, and it keeps them without the blanks at its ends. Main statement: `NodeCut.kept`. -/
namespace BlockTally.Listing
open Text

theorem isBlank_of_isNameChar {c : Char} (plain : isNameChar c = true) : isBlank c = false := by
  simp only [isNameChar, Bool.or_eq_true, beq_iff_eq] at plain
  rcases plain with (((letter | rfl) | rfl) | rfl) | rfl
  · delta Char.isAlphanum Char.isAlpha Char.isUpper Char.isLower Char.isDigit at letter
    simp only [Bool.or_eq_true, Bool.and_eq_true, decide_eq_true_eq, ge_iff_le,
      UInt32.le_iff_toNat_le] at letter
    have code : c.val.toNat = c.toNat := rfl
    simp [code, isBlank] at letter ⊢
    omega
  all_goals decide

/-- No line break stands between the quotes of a token. A token without quotes has none. -/
def Token.Unbroken : Token → Prop
  | .globalName text | .localName text | .label text | .quoted text => Flat text
  | _ => True

instance : (t : Token) → Decidable t.Unbroken
  | .globalName text | .localName text | .label text | .quoted text =>
    inferInstanceAs (Decidable (Flat text))
  | .nodeRef _ | .nodeName _ | .attrRef | .comdatRef | .word _ | .int _ | .punct _ => .isTrue trivial

/-- The characters of a token: none is blank but between quotes. -/
inductive Shape (unbroken : Prop) : List Char → Prop
  | solid {a : List Char} (all : ∀ c ∈ a, isBlank c = false) : Shape unbroken a
  | quoted {a b z : List Char} (ends : ∀ c ∈ a ++ z, isBlank c = false)
      (flat : unbroken → ∀ c ∈ b, c ≠ '\n') : Shape unbroken (a ++ '"' :: (b ++ '"' :: z))

theorem NameSpelling.shape {cs : List Char} {name : String} (named : NameSpelling cs name) {c : Char}
    (sign : isBlank c = false) : Shape (Flat name) (c :: cs) := by
  cases named with
  | bare some plain =>
    exact .solid (List.forall_mem_cons.mpr ⟨sign, fun d mem => isBlank_of_isNameChar (plain d mem)⟩)
  | quoted inside =>
    refine .quoted (a := [c]) (z := []) (by simpa using sign) fun flat d mem => flat d ?_
    simpa using mem

theorem Spelling.shape {cs : List Char} {t : Token} (spelled : Spelling cs t) :
    Shape t.Unbroken cs := by
  have digits_solid : ∀ {ds : List Char}, (∀ c ∈ ds, c.isDigit = true) → ∀ c ∈ ds, isBlank c = false :=
    fun digits c mem => isBlank_of_isNameChar (isNameChar_of_isDigit (digits c mem))
  have names_solid : ∀ {ds : List Char}, (∀ c ∈ ds, isNameChar c = true) → ∀ c ∈ ds, isBlank c = false :=
    fun plain c mem => isBlank_of_isNameChar (plain c mem)
  cases spelled with
  | globalName named => exact named.shape (by decide)
  | localName named => exact named.shape (by decide)
  | nodeRef number =>
    exact .solid (List.forall_mem_cons.mpr ⟨by decide, digits_solid (digits_of_word32? number).2⟩)
  | nodeName letter plain =>
    exact .solid (List.forall_mem_cons.mpr ⟨by decide, names_solid plain⟩)
  | bang => exact .solid (by decide)
  | attrRef some digits => exact .solid (List.forall_mem_cons.mpr ⟨by decide, digits_solid digits⟩)
  | quotedLabel inside =>
    exact .quoted (a := []) (z := [':']) (by decide) fun flat d mem => flat d (by simpa using mem)
  | quoted inside =>
    exact .quoted (a := []) (z := []) (by decide) fun flat d mem => flat d (by simpa using mem)
  | @label c cs plain =>
    refine .solid fun d mem => ?_
    rw [← List.cons_append] at mem
    rcases List.mem_append.mp mem with name | colon
    · exact names_solid plain d name
    · rw [List.mem_singleton.mp colon]
      decide
  | word plain known => exact .solid (names_solid plain)
  | @punct c p other known =>
    refine .solid (List.forall_mem_singleton.mpr ?_)
    unfold Punct.ofChar? at known
    split at known <;> first | decide | cases known

theorem Shape.flat {unbroken : Prop} {cs : List Char} (shape : Shape unbroken cs) (holds : unbroken) :
    ∀ c ∈ cs, c ≠ '\n' := by
  have solid : ∀ c, isBlank c = false → c ≠ '\n' := by
    rintro c apart rfl
    exact absurd apart (by decide)
  cases shape with
  | solid all => exact fun c mem => solid c (all c mem)
  | @quoted a b z ends flat =>
    intro c mem
    simp only [List.mem_append, List.mem_cons] at mem ends
    rcases mem with front | rfl | inside | rfl | back
    · exact solid c (ends c (.inl front))
    · decide
    · exact flat holds c inside
    · decide
    · exact solid c (ends c (.inr back))

/-- A token does not begin or end with a blank. -/
theorem Shape.first {unbroken : Prop} {cs : List Char} (shape : Shape unbroken cs) :
    ∀ c ∈ cs.head?, isBlank c = false := by
  intro c first
  cases shape with
  | solid all => exact all c (List.mem_of_mem_head? first)
  | @quoted a b z ends flat =>
    cases a with
    | nil =>
      obtain rfl := Option.some.inj first
      decide
    | cons d a =>
      obtain rfl := Option.some.inj first
      exact ends d (by simp)

theorem Shape.last {unbroken : Prop} {cs : List Char} (shape : Shape unbroken cs) :
    ∀ c ∈ cs.getLast?, isBlank c = false := by
  intro c last
  cases shape with
  | solid all => exact all c (List.mem_of_mem_getLast? last)
  | @quoted a b z ends flat =>
    rcases List.eq_nil_or_concat z with rfl | ⟨z, d, rfl⟩
    · have whole : a ++ '"' :: (b ++ ['"']) = a ++ '"' :: b ++ ['"'] := by simp
      rw [whole, List.getLast?_concat] at last
      obtain rfl := Option.some.inj last
      decide
    · have whole : a ++ '"' :: (b ++ '"' :: z.concat d) = a ++ '"' :: (b ++ '"' :: z) ++ [d] := by simp
      rw [whole, List.getLast?_concat] at last
      obtain rfl := Option.some.inj last
      exact ends d (by simp)

/-- What comes behind a token may end early. -/
theorem Spelling.tokenAt_front {c : Char} {rest a z : List Char} {t : Token}
    (spelled : Spelling (c :: rest) t) (found : tokenAt c (rest ++ (a ++ z)) = some (t, rest.length)) :
    tokenAt c (rest ++ a) = some (t, rest.length) := by
  cases a with
  | nil => exact spelled.headTest.of_ends Ends.nil
  | cons d a =>
    have alike : (d :: a).head? = (d :: a ++ z).head? := rfl
    exact spelled.headTest.congr alike found

/-- The front of a text, up to a place that is inside no token, has tokens of its own wherever it
stands. -/
theorem Lexed.front {o : Nat} {cs z : List Char} {ts : List Lexeme} (lexed : Lexed o cs ts)
    (outside : ∀ u ∈ ts, ∀ b c, Spelling (b ++ c) u.token → c <+: z → c = []) :
    ∀ {a : List Char} (k : Nat), cs = a ++ z → ∃ us, Lexed k a us := by
  induction lexed with
  | nil =>
    intro a k whole
    obtain ⟨rfl, -⟩ := List.append_eq_nil_iff.mp whole.symm
    exact ⟨[], .nil⟩
  | gap blank _ ih =>
    intro a k whole
    rcases List.cons_eq_append_iff.mp whole with ⟨rfl, -⟩ | ⟨a, rfl, rfl⟩
    · exact ⟨[], .nil⟩
    · obtain ⟨us, front⟩ := ih outside _ rfl
      exact ⟨us, .gap blank front⟩
  | @comment o text cs ts flat stop _ ih =>
    intro a k whole
    rcases List.cons_eq_append_iff.mp whole with ⟨rfl, -⟩ | ⟨a, rfl, same⟩
    · exact ⟨[], .nil⟩
    rcases List.append_eq_append_iff.mp same with ⟨b, rfl, rfl⟩ | ⟨b, rfl, -⟩
    · obtain ⟨us, front⟩ := ih outside _ rfl
      refine ⟨us, .comment flat (fun c first => stop c ?_) front⟩
      rw [List.head?_append, first]
      rfl
    · have short : Lexed k (';' :: (a ++ [])) [] :=
        .comment (fun c mem => flat c (List.mem_append_left b mem)) nofun .nil
      rw [List.append_nil] at short
      exact ⟨[], short⟩
  | @token o text cs t ts spelled apart _ ih =>
    intro a k whole
    obtain ⟨own, others⟩ := List.forall_mem_cons.mp outside
    have split : ∃ b, a = text ++ b ∧ cs = b ++ z := by
      rcases List.append_eq_append_iff.mp whole with here | ⟨b, rfl, behind⟩
      · exact here
      · obtain rfl := own a b spelled ⟨cs, behind.symm⟩
        exact ⟨[], by simp, behind.symm⟩
    obtain ⟨b, rfl, rfl⟩ := split
    obtain ⟨us, front⟩ := ih others (k + byteLength text) rfl
    obtain ⟨c, rest, rfl, solid, plain, found⟩ := apart
    exact ⟨_, .token spelled ⟨c, rest, rfl, solid, plain, spelled.tokenAt_front found⟩ front⟩

theorem Lexed.line {o : Nat} {cs : List Char} {ts : List Lexeme} (lexed : Lexed o cs ts)
    (unbroken : ∀ t ∈ ts, t.token.Unbroken) : ∃ us, Lexed o (cs.takeWhile (· != '\n')) us := by
  refine lexed.front (z := cs.dropWhile (· != '\n')) ?_ o List.takeWhile_append_dropWhile.symm
  intro u mem b c spelled reaches
  cases c with
  | nil => rfl
  | cons d c =>
    have flat := spelled.shape.flat (unbroken u mem) d (by simp)
    obtain ⟨more, behind⟩ := reaches
    exact absurd (line_stop cs d (by rw [← behind]; rfl)) flat

/-- Blanks before the first token are gaps. -/
theorem Lexed.blanks {o : Nat} {cs : List Char} {ts : List Lexeme} (lexed : Lexed o cs ts) :
    ∃ k, Lexed k (cs.dropWhile isBlank) ts := by
  induction lexed with
  | nil => exact ⟨0, .nil⟩
  | @gap o c cs ts blank rest ih =>
    by_cases drops : isBlank c = true
    · rw [List.dropWhile_cons_of_pos drops]
      exact ih
    · rw [List.dropWhile_cons_of_neg drops]
      exact ⟨o, .gap blank rest⟩
  | comment flat stop rest =>
    rw [List.dropWhile_cons_of_neg (by decide)]
    exact ⟨_, .comment flat stop rest⟩
  | token spelled apart rest =>
    obtain ⟨c, cs, rfl, known⟩ := apart
    rw [List.cons_append, List.dropWhile_cons_of_neg (by simp [spelled.shape.first c rfl])]
    exact ⟨_, .token spelled ⟨c, cs, rfl, known⟩ rest⟩

theorem Lexed.trimmed {o : Nat} {text : String} {ts : List Lexeme} (lexed : Lexed o text.toList ts) :
    ∃ us, Lexed 0 (Text.trimmed text).toList us := by
  obtain ⟨k, behind⟩ := lexed.blanks
  rw [Text.trimmed, String.toList_ofList]
  generalize text.toList.dropWhile isBlank = cs at behind
  have split := List.takeWhile_append_dropWhile (p := isBlank) (l := cs.reverse)
  have whole : cs = (cs.reverse.dropWhile isBlank).reverse ++ (cs.reverse.takeWhile isBlank).reverse := by
    rw [← List.reverse_append, split, List.reverse_reverse]
  refine behind.front (fun u mem b c spelled reaches => ?_) 0 whole
  rcases List.eq_nil_or_concat c with rfl | ⟨c, d, rfl⟩
  · rfl
  · have solid := spelled.shape.last d (by simp)
    have blank : d ∈ cs.reverse.takeWhile isBlank := List.mem_reverse.mp (reaches.subset (by simp))
    rw [List.mem_takeWhile_imp blank] at solid
    cases solid

/-- No token of the text has a line break between its quotes. -/
def Unbroken (src : List Char) : Prop := ∀ ts, lex src = .ok ts → ∀ t ∈ ts, t.token.Unbroken

/-- What follows a sign on its line lexes by itself. -/
theorem NodeCut.kept {src : List Char} {text : String} (cut : NodeCut src text)
    (unbroken : Unbroken src) : KeptNode text := by
  refine ⟨cut.text.flat, cut.text.trim, ?_⟩
  obtain ⟨sign, after, ⟨before, lexed⟩, rfl⟩ := cut
  have solid : ∀ t ∈ after, t.token.Unbroken := fun t mem =>
    unbroken _ lexed.lexFrom t (by simp [mem])
  obtain ⟨a, b, us, rfl, stop, -, -, rest⟩ := lexed.cut rfl
  obtain ⟨vs, line⟩ := rest.line solid
  have piece := slice_append a (b.takeWhile (· != '\n')) (b.dropWhile (· != '\n'))
  rw [List.takeWhile_append_dropWhile] at piece
  rw [stop, Nat.zero_add, lineEnd_behind, firstLine, piece]
  rw [← String.toList_ofList (l := b.takeWhile (· != '\n'))] at line
  exact line.trimmed

end BlockTally.Listing
