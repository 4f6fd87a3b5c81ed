import BlockTally.Proofs.Listing.Patterns

/-! What lexing does with a text. Each byte belongs to a token or is skipped, up to the end or to a
place where no token can begin. Main statement: `lex_covers`. -/
namespace BlockTally.Listing
open Text

def blanks : List Char := [' ', '\t', '\r', '\n', '\x0c']

/-- Blanks and comments before `post`. A comment goes on to the end of its line. -/
inductive Skipped : List Char → List Char → Prop
  | nil {post : List Char} : Skipped [] post
  | blank {c : Char} {cs post : List Char} (blank : c ∈ blanks) (more : Skipped cs post) :
      Skipped (c :: cs) post
  | comment {text cs post : List Char} (flat : ∀ c ∈ text, c ≠ '\n')
      (stop : ∀ c ∈ (cs ++ post).head?, c = '\n') (more : Skipped cs post) :
      Skipped (';' :: (text ++ cs)) post

/-- The piece takes the text from one byte to the other, and `post` stands behind it. -/
def Stands (src piece post : List Char) (start stop : Nat) : Prop :=
  ∃ pre, src = pre ++ (piece ++ post) ∧ byteLength pre = start ∧ byteLength (pre ++ piece) = stop

/-- The tokens of a text up to a byte. -/
structure Covered (src : List Char) (ts : List Lexeme) (limit : Nat) : Prop where
  bounds : ∀ t ∈ ts, t.start < t.stop ∧ t.stop ≤ limit
  limit_le : limit ≤ byteLength src
  ordered : ts.Pairwise (·.stop ≤ ·.start)
  /-- Wherever the tokens are parted, nothing stands there that is not skipped. -/
  between : ∀ front back, ts = front ++ back → ∃ gap post,
    Stands src gap post ((front.getLast?.map Lexeme.stop).getD 0)
      ((back.head?.map Lexeme.start).getD limit) ∧ Skipped gap post
  matched : ∀ t ∈ ts, ∃ text post, Stands src text post t.start t.stop ∧ Longest text post ∧
    ∀ k : Pattern, k.Fits text → k.token? text = some t.token

/-- Nothing can be skipped here, and no token begins here. -/
structure Stuck (rest : List Char) : Prop where
  solid : ∃ c cs, rest = c :: cs ∧ c ∉ blanks ∧ c ≠ ';'
  invalid : ∀ text post, rest = text ++ post → Longest text post →
    ∀ k : Pattern, k.Fits text → k.token? text = none
  obstacle : Obstacle rest

/-- The tokens of a text that starts at a byte, with `rest` behind it. -/
inductive Scanned (rest : List Char) : Nat → List Char → List Lexeme → Prop
  | stop {o : Nat} {gap : List Char} (skipped : Skipped gap rest) : Scanned rest o gap []
  | token {o : Nat} {gap text cs : List Char} {t : Token} {ts : List Lexeme}
      (skipped : Skipped gap (text ++ (cs ++ rest))) (longest : Longest text (cs ++ rest))
      (known : ∀ k : Pattern, k.Fits text → k.token? text = some t)
      (more : Scanned rest (o + byteLength (gap ++ text)) cs ts) :
      Scanned rest o (gap ++ (text ++ cs))
        (⟨t, o + byteLength gap, o + byteLength (gap ++ text)⟩ :: ts)

/-- The answer when `rest` is left behind the tokens. -/
inductive Answers (ts : List Lexeme) (limit : Nat) : List Char → Except Nat (List Lexeme) → Prop
  | done : Answers ts limit [] (.ok ts)
  | stuck {rest : List Char} (stuck : Stuck rest) : Answers ts limit rest (.error limit)

section
variable {rest cs : List Char} {o : Nat} {ts : List Lexeme}

private theorem isGap_iff {c : Char} : isGap c = true ↔ c ∈ blanks := by
  simp [isGap, blanks, or_assoc]

private theorem stuck_of_tokenAt {c : Char} (solid : ¬ isGap c = true) (code : c ≠ ';')
    (missing : tokenAt c cs = none) : Stuck (c :: cs) where
  solid := ⟨c, cs, rfl, fun blank => solid (isGap_iff.mpr blank), code⟩
  invalid := fun _ _ split longest _ fits => token?_of_tokenAt missing split longest fits
  obstacle := obstacle_of_tokenAt missing

/-- More is skipped in front. -/
theorem Scanned.lead (front : List Char)
    (skips : ∀ gap post, gap ++ post = cs ++ rest → Skipped gap post → Skipped (front ++ gap) post)
    (scanned : Scanned rest (o + byteLength front) cs ts) : Scanned rest o (front ++ cs) ts := by
  cases scanned with
  | stop skipped => exact .stop (skips _ _ rfl skipped)
  | @token _ gap text cs _ _ skipped longest known more =>
    have longer := skips gap _ (by simp) skipped
    have sizes : ∀ back,
        o + byteLength front + byteLength back = o + byteLength (front ++ back) := by
      simp [Nat.add_assoc]
    rw [sizes, ← List.append_assoc] at more
    rw [sizes, sizes, ← List.append_assoc front, ← List.append_assoc front]
    exact .token longer longest known more

/-- One more token in front. -/
theorem Scanned.found {c : Char} {a : List Char} {t : Token} {n : Nat}
    (found : tokenAt c cs = some (t, n)) (split : cs.drop n = a ++ rest)
    (scanned : Scanned rest (o + byteLength (c :: cs.take n)) a ts) :
    Scanned rest o (c :: cs.take n ++ a) (⟨t, o, o + byteLength (c :: cs.take n)⟩ :: ts) := by
  obtain ⟨longest, known⟩ := longest_of_tokenAt found
  rw [split] at longest
  exact .token .nil longest known scanned

/-- A comment is left where its line ends. -/
theorem comment_split (cs : List Char) :
    cs = cs.takeWhile (· != '\n') ++ cs.drop (cs.takeWhile (· != '\n')).length ∧
      ∀ c ∈ (cs.drop (cs.takeWhile (· != '\n')).length).head?, c = '\n' := by
  rw [drop_line]
  exact ⟨List.takeWhile_append_dropWhile.symm, line_stop cs⟩

private theorem lexFrom_scanned (o : Nat) (cs : List Char) : ∃ a rest ts, cs = a ++ rest ∧
    Scanned rest o a ts ∧ Answers ts (o + byteLength a) rest (lexFrom o cs) := by
  fun_induction lexFrom o cs with
  | case1 o => exact ⟨[], [], [], rfl, .stop .nil, .done⟩
  | case2 o c cs blank ih =>
    obtain ⟨a, rest, ts, rfl, scanned, answers⟩ := ih
    refine ⟨c :: a, rest, ts, rfl, scanned.lead [c] fun _ _ _ => .blank ?_, ?_⟩
    · exact isGap_iff.mp blank
    · rwa [byteLength_cons, ← Nat.add_assoc]
  | case3 o cs text _ ih =>
    obtain ⟨a, rest, ts, left, scanned, answers⟩ := ih
    obtain ⟨split, stop⟩ := comment_split cs
    rw [left] at split stop
    -- Where the comment stops is known only with what is left behind the tokens.
    refine ⟨';' :: text ++ a, rest, ts, ?_,
      scanned.lead (';' :: text) fun gap post same skipped => ?_, ?_⟩
    · exact congrArg (';' :: ·) split |>.trans (by simp [text])
    · refine .comment (fun c mem => by simpa using List.mem_takeWhile_imp mem) ?_ skipped
      rwa [same]
    · rwa [byteLength_append, ← Nat.add_assoc]
  | case4 o c cs solid code missing =>
    exact ⟨[], c :: cs, [], rfl, .stop .nil, .stuck (stuck_of_tokenAt solid code missing)⟩
  | case5 o c cs _ _ t n found stop e failed ih =>
    obtain ⟨a, rest, ts, split, scanned, answers⟩ := ih
    refine ⟨_, rest, _, ?_, scanned.found found split, ?_⟩
    · simp [← split]
    · rw [failed] at answers
      cases answers with
      | stuck stuck =>
        have limit : o + byteLength (c :: cs.take n ++ a) = stop + byteLength a := by
          rw [byteLength_append, Nat.add_assoc]
        exact limit ▸ .stuck stuck
  | case6 o c cs _ _ t n found stop ts more ih =>
    obtain ⟨a, rest, ts, split, scanned, answers⟩ := ih
    refine ⟨_, rest, _, ?_, scanned.found found split, ?_⟩
    · simp [← split]
    · rw [more] at answers
      cases answers with
      | done => exact .done

theorem Scanned.bounds {a : List Char} (scanned : Scanned rest o a ts) :
    ∀ t ∈ ts, o ≤ t.start ∧ t.start < t.stop ∧ t.stop ≤ o + byteLength a := by
  induction scanned with
  | stop => simp
  | @token o gap text cs t ts _ longest _ _ ih =>
    obtain ⟨k, fits⟩ := longest.fits
    have some := byteLength_pos fits.ne_nil
    have front := byteLength_append gap text
    have whole : byteLength (gap ++ (text ++ cs)) = byteLength (gap ++ text) + byteLength cs := by
      simp [Nat.add_assoc]
    rw [whole]
    refine List.forall_mem_cons.mpr ⟨?_, fun u mem => ?_⟩
    · dsimp only
      omega
    · have inside := ih u mem
      omega

theorem Scanned.ordered {a : List Char} (scanned : Scanned rest o a ts) :
    ts.Pairwise (·.stop ≤ ·.start) := by
  induction scanned with
  | stop => exact .nil
  | token _ _ _ more ih => exact .cons (fun u mem => (more.bounds u mem).1) ih

theorem Scanned.matched (pre : List Char) {a : List Char}
    (scanned : Scanned rest (byteLength pre) a ts) :
    ∀ t ∈ ts, ∃ text post, Stands (pre ++ (a ++ rest)) text post t.start t.stop ∧
      Longest text post ∧ ∀ k : Pattern, k.Fits text → k.token? text = some t.token := by
  generalize here : byteLength pre = o at scanned
  induction scanned generalizing pre with
  | stop => simp
  | @token o gap text cs t ts _ longest known _ ih =>
    have further := ih (pre ++ (gap ++ text)) (by rw [byteLength_append, here])
    have whole : pre ++ (gap ++ (text ++ cs) ++ rest) = pre ++ (gap ++ text) ++ (cs ++ rest) := by
      simp
    rw [whole]
    refine List.forall_mem_cons.mpr ⟨⟨text, cs ++ rest, ⟨pre ++ gap, ?_, ?_, ?_⟩, longest, known⟩,
      further⟩
    · simp
    · rw [byteLength_append, here]
    · simp [here]

/-- The place behind a row of tokens does not depend on where the row begins, unless it is empty. -/
theorem getD_getLast?_cons (u : Lexeme) (us : List Lexeme) (o : Nat) :
    ((u :: us).getLast?.map Lexeme.stop).getD o = (us.getLast?.map Lexeme.stop).getD u.stop := by
  rw [List.getLast?_cons, Option.map_some, Option.getD_some]
  cases us.getLast? <;> rfl

theorem Scanned.between (pre : List Char) {a : List Char}
    (scanned : Scanned rest (byteLength pre) a ts) :
    ∀ front back, ts = front ++ back → ∃ gap post, Stands (pre ++ (a ++ rest)) gap post
      ((front.getLast?.map Lexeme.stop).getD (byteLength pre))
      ((back.head?.map Lexeme.start).getD (byteLength pre + byteLength a)) ∧ Skipped gap post := by
  generalize here : byteLength pre = o at scanned
  induction scanned generalizing pre with
  | @stop o gap skipped =>
    intro front back none
    obtain ⟨rfl, rfl⟩ := List.nil_eq_append_iff.mp none
    exact ⟨gap, rest, ⟨pre, rfl, here, by simp [here]⟩, skipped⟩
  | @token o gap text cs t ts skipped _ _ _ ih =>
    intro front back split
    cases front with
    | nil =>
      subst split
      exact ⟨gap, text ++ (cs ++ rest), ⟨pre, by simp, here, by simp [here]⟩, skipped⟩
    | cons u front =>
      obtain ⟨rfl, others⟩ := List.cons.inj split
      obtain ⟨gap', post, stands, skipped'⟩ := ih (pre ++ (gap ++ text))
        (by rw [byteLength_append, here]) front back others
      refine ⟨gap', post, ?_, skipped'⟩
      have whole : pre ++ (gap ++ (text ++ cs) ++ rest) = pre ++ (gap ++ text) ++ (cs ++ rest) := by
        simp
      have size : o + byteLength (gap ++ (text ++ cs)) =
          o + byteLength (gap ++ text) + byteLength cs := by
        simp [Nat.add_assoc]
      rwa [getD_getLast?_cons, whole, size]

/-- A text is covered by its tokens. Where one is not found, what stands in front is covered, and no
token begins there. -/
theorem lex_covers (src : List Char) :
    (∀ ts, lex src = .ok ts → Covered src ts (byteLength src)) ∧
      ∀ n, lex src = .error n → ∃ ts rest, Covered src ts n ∧
        (∃ pre, src = pre ++ rest ∧ byteLength pre = n) ∧ Stuck rest := by
  obtain ⟨a, rest, ts, rfl, scanned, answers⟩ := lexFrom_scanned 0 src
  have covered : Covered (a ++ rest) ts (byteLength a) :=
    { bounds := fun t mem => by
        have inside := scanned.bounds t mem
        omega
      limit_le := by simp
      ordered := scanned.ordered
      between := by
        have between := Scanned.between [] scanned
        simpa using between
      matched := Scanned.matched [] scanned }
  rw [Nat.zero_add] at answers
  refine ⟨fun us ok => ?_, fun n failed => ?_⟩
  · rw [← lex, ok] at answers
    cases answers with
    | done =>
      rw [List.append_nil] at covered ⊢
      exact covered
  · rw [← lex, failed] at answers
    cases answers with
    | stuck stuck => exact ⟨ts, rest, covered, ⟨a, rfl, rfl⟩, stuck⟩

end

/-- A numbered block that refers to a node, with a comment behind it. -/
def noted : List Char := ['7', ':', ' ', '!', '0', ' ', ';', '"']

/-- A quote that opens on the second line. -/
def halfQuoted : List Char := ['%', 'a', ' ', ';', '@', '\n', '@', '"', 'b']

theorem lex_covers_noted :
    (lex noted = .ok [⟨.label "7", 0, 2⟩, ⟨.nodeRef 0, 3, 5⟩] ∧
      Covered noted [⟨.label "7", 0, 2⟩, ⟨.nodeRef 0, 3, 5⟩] 8) ∧
    lex halfQuoted = .error 6 ∧ ∃ ts rest, Covered halfQuoted ts 6 ∧
      (∃ pre, halfQuoted = pre ++ rest ∧ byteLength pre = 6) ∧ Stuck rest := by
  have whole : lex noted = .ok [⟨.label "7", 0, 2⟩, ⟨.nodeRef 0, 3, 5⟩] := by decide +kernel
  have failed : lex halfQuoted = .error 6 := by decide +kernel
  exact ⟨⟨whole, (lex_covers noted).1 _ whole⟩, failed, (lex_covers halfQuoted).2 _ failed⟩

end BlockTally.Listing
