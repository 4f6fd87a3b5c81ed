import BlockTally.Proofs.Listing.Origin

/-! Texts cut at tokens and joined at line ends lex piece by piece. Main statement: `lex_pieces`. -/
namespace BlockTally.Listing
open Text

/-- The same answer for a text that starts `n` bytes later. -/
def shifted (n : Nat) : Except Nat (List Lexeme) → Except Nat (List Lexeme)
  | .ok ts => .ok (ts.map (·.shift n))
  | .error e => .error (n + e)

section
variable {src a b : List Char} {ts : List Lexeme} {o : Nat}

private theorem lexFrom_shift (n o : Nat) (cs : List Char) :
    lexFrom (n + o) cs = shifted n (lexFrom o cs) := by
  fun_induction lexFrom o cs with
  | case1 =>
    rw [lexFrom]
    rfl
  | case2 o c cs blank ih => rw [lexFrom, if_pos blank, Nat.add_assoc, ih]
  | case3 o cs text _ ih =>
    rw [lexFrom, if_neg (by decide), if_pos rfl]
    dsimp only
    rw [Nat.add_assoc, ih]
  | case4 o c cs solid code missing =>
    rw [lexFrom, if_neg solid, if_neg code, missing]
    rfl
  | case5 o c cs solid code t k found stop e failed ih =>
    rw [lexFrom, if_neg solid, if_neg code, found]
    dsimp only
    rw [Nat.add_assoc, ih, failed]
    rfl
  | case6 o c cs solid code t k found stop ts more ih =>
    rw [lexFrom, if_neg solid, if_neg code, found]
    dsimp only
    rw [Nat.add_assoc, ih, more]
    rfl

/-- What was lexed by itself goes on with the answer for the next line. -/
theorem Lexed.before_line {post : List Char} (lexed : Lexed o a ts)
    (line : ∀ c ∈ post.head?, c = '\n') :
    Listing.lexFrom o (a ++ post) = (Listing.lexFrom (o + byteLength a) post).map (ts ++ ·) := by
  induction lexed with
  | @nil o =>
    rw [List.nil_append, byteLength_nil, Nat.add_zero]
    cases Listing.lexFrom o post <;> rfl
  | gap blank _ ih =>
    rw [List.cons_append, Listing.lexFrom, if_pos blank, ih, byteLength_cons, Nat.add_assoc]
  | @comment o text cs ts flat stop _ ih =>
    have stop' : ∀ c ∈ (cs ++ post).head?, c = '\n' := by
      cases cs with
      | nil => exact line
      | cons c cs => exact stop
    rw [List.cons_append, List.append_assoc, lexFrom_comment flat stop', ih, ← List.cons_append,
      byteLength_append, Nat.add_assoc]
  | @token o text cs t ts spelled apart _ ih =>
    obtain ⟨c, rest, rfl, solid, plain, found⟩ := spelled.apart_append apart line
    rw [List.append_assoc, lexFrom_token solid plain found, ih, byteLength_append, Nat.add_assoc]
    cases Listing.lexFrom (o + (byteLength (c :: rest) + byteLength cs)) post <;> rfl

private theorem lex_line (lexed : lex a = .ok ts) (b : List Char) :
    lex (a ++ '\n' :: b) = (shifted (byteLength a + 1) (lex b)).map (ts ++ ·) := by
  have gap : lexFrom (byteLength a) ('\n' :: b) = lexFrom (byteLength a + 1 + 0) b := by
    rw [lexFrom, if_pos (by decide)]
    rfl
  rw [lex, (lexFrom_eq_ok.mp lexed).before_line (by simp), Nat.zero_add, gap, lexFrom_shift]
  rfl

/-- The text of a run of tokens lexes to these tokens. -/
theorem lex_span {run more : List Lexeme} {first : Lexeme} (source : Source src (run ++ more))
    (head : run.head? = some first) :
    ∃ us, lex (spanText src run).toList = .ok us ∧ run = us.map (·.shift first.start) := by
  obtain ⟨us, o, raw, same, -⟩ := source.raw run more
  refine ⟨us, raw.lexed.lexFrom, ?_⟩
  rw [same, List.head?_map] at head
  obtain ⟨u, here, rfl⟩ := Option.map_eq_some_iff.mp head
  have start : (u.shift o).start = o := by
    simp only [Lexeme.shift, raw.starts u here, Nat.add_zero]
  rw [start, same]

/-- The text from one token to another lexes to the tokens there, and what follows a line does not
change the tokens of the line. -/
theorem lex_pieces (lexed : lex src = .ok ts) :
    (∀ i j first last, i < j → ts[i]? = some first → ts[j - 1]? = some last → ∃ text us,
      slice? src first.start last.stop = some text ∧ span? src ((ts.take j).drop i) = some text ∧
        lex text.toList = .ok us ∧ (ts.take j).drop i = us.map (·.shift first.start)) ∧
    ∀ b, lex (src ++ '\n' :: b) = (shifted (byteLength src + 1) (lex b)).map (ts ++ ·) := by
  refine ⟨fun i j first last less here there => ?_, lex_line lexed⟩
  have inside : j ≤ ts.length := by
    have := (List.getElem?_eq_some_iff.mp there).1
    omega
  have length : (ts.take j).length = j := by rw [List.length_take, Nat.min_eq_left inside]
  have head : ((ts.take j).drop i).head? = some first := by
    rw [List.head?_drop, List.getElem?_take_of_lt less, here]
  have final : ((ts.take j).drop i).getLast? = some last := by
    rw [List.getLast?_drop, if_neg (by omega), List.getLast?_take, if_neg (by omega), there]
    rfl
  have cut : span? src ((ts.take j).drop i) = slice? src first.start last.stop := by
    rw [span?, head, final]
  have whole : (ts.take j).drop i ++ ts.drop j = ts.drop i := by
    conv_rhs => rw [← List.take_append_drop j ts, List.drop_append_of_le_length (by omega)]
  have source : Source src ((ts.take j).drop i ++ ts.drop j) := by
    rw [whole]
    exact Source.suffix ⟨[], lexFrom_eq_ok.mp lexed⟩ (List.drop_suffix i ts)
  have span := source.span? _ _
  obtain ⟨us, tokens, same⟩ := lex_span source head
  exact ⟨_, us, cut ▸ span, span, tokens, same⟩

end

/-- A label, a quoted text and a reference, with a comment at the end of the line. -/
def labelled : List Char := ['a', ':', ' ', '"', 'b', '"', ' ', '#', '1', ' ', ';', '"']

def labelledTokens : List Lexeme := [⟨.label "a", 0, 2⟩, ⟨.quoted "b", 3, 6⟩, ⟨.attrRef, 7, 9⟩]

theorem lex_pieces_labelled : lex labelled = .ok labelledTokens ∧
    (∃ text us, slice? labelled 3 9 = some text ∧ lex text.toList = .ok us ∧
      [⟨.quoted "b", 3, 6⟩, ⟨.attrRef, 7, 9⟩] = us.map (·.shift 3)) ∧
    lex (labelled ++ '\n' :: [':', '"']) = .error 13 := by
  have lexed : lex labelled = .ok labelledTokens := by decide +kernel
  have failed : lex [':', '"'] = .error 0 := by decide +kernel
  obtain ⟨parts, lines⟩ := lex_pieces lexed
  obtain ⟨text, us, cut, -, tokens, same⟩ :=
    parts 1 3 ⟨.quoted "b", 3, 6⟩ ⟨.attrRef, 7, 9⟩ (by decide) rfl rfl
  refine ⟨lexed, ⟨text, us, cut, tokens, same⟩, ?_⟩
  rw [lines, failed]
  rfl

end BlockTally.Listing
