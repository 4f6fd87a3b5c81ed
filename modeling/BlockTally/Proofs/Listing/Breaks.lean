import BlockTally.Proofs.Listing.Unbroken

/-! Tokens on both sides of a line break. What stands before it has the same tokens whatever follows,
unless a quotation runs over the break, and then it ends behind it. Main statements:
`Lexed.split_line`, `Lexed.behind`. -/
namespace BlockTally.Listing
open Text

section
variable {o : Nat} {text cs : List Char} {ts : List Lexeme}

/-! Tokens of a text of which the beginning is known. -/

theorem Lexed.of_gap {c : Char} (blank : isGap c = true) (lexed : Lexed o (c :: cs) ts) :
    Lexed (o + c.utf8Size) cs ts := by
  have ok := lexed.lexFrom
  rw [Listing.lexFrom, if_pos blank] at ok
  exact lexFrom_eq_ok.mp ok

theorem Lexed.of_comment (flat : ∀ c ∈ text, c ≠ '\n') (stop : ∀ c ∈ cs.head?, c = '\n')
    (lexed : Lexed o (';' :: (text ++ cs)) ts) : Lexed (o + byteLength (';' :: text)) cs ts := by
  have line : (text ++ cs).takeWhile (· != '\n') = text :=
    takeWhile_append_stop (by simpa using flat) (by simpa using stop)
  have ok := lexed.lexFrom
  rw [Listing.lexFrom, if_neg (by decide), if_pos rfl] at ok
  simp only [line, List.drop_left] at ok
  exact lexFrom_eq_ok.mp ok

theorem Lexed.of_token {t : Token} (apart : ∃ c rest, text = c :: rest ∧ isGap c = false ∧ c ≠ ';' ∧
    tokenAt c (rest ++ cs) = some (t, rest.length)) (lexed : Lexed o (text ++ cs) ts) :
    ∃ us, ts = ⟨t, o, o + byteLength text⟩ :: us ∧ Lexed (o + byteLength text) cs us := by
  obtain ⟨c, rest, rfl, solid, plain, found⟩ := apart
  have ok := lexed.lexFrom
  rw [List.cons_append, Listing.lexFrom, if_neg (by simp [solid]), if_neg plain, found] at ok
  simp only [List.drop_left, List.take_left] at ok
  split at ok
  · cases ok
  · next us behind =>
    obtain rfl := Except.ok.inj ok
    exact ⟨us, rfl, lexFrom_eq_ok.mp behind⟩

theorem Spelling.lexed_inv {t : Token} (spelled : Spelling text t) (ends : Ends cs)
    (lexed : Lexed o (text ++ cs) ts) :
    ∃ us, ts = ⟨t, o, o + byteLength text⟩ :: us ∧ Lexed (o + byteLength text) cs us :=
  lexed.of_token (spelled.tokenAt_append ends)

/-- The first token, and what is behind it. -/
theorem Lexed.first {t : Lexeme} (lexed : Lexed o cs (t :: ts)) : ∃ gap text post,
    cs = gap ++ (text ++ post) ∧ Spelling text t.token ∧ t.stop = o + byteLength (gap ++ text) ∧
      Lexed t.stop post ts := by
  generalize whole : t :: ts = all at lexed
  induction lexed with
  | nil => cases whole
  | @gap o c _ _ _ _ ih =>
    obtain ⟨gap, text, post, rfl, spelled, stop, rest⟩ := ih whole
    exact ⟨c :: gap, text, post, rfl, spelled, by simp [stop, Nat.add_assoc], rest⟩
  | @comment o line _ _ _ _ _ ih =>
    obtain ⟨gap, text, post, rfl, spelled, stop, rest⟩ := ih whole
    exact ⟨';' :: line ++ gap, text, post, by simp, spelled, by simp [stop, Nat.add_assoc], rest⟩
  | @token o text cs _ _ spelled _ rest _ =>
    obtain ⟨rfl, rfl⟩ := List.cons.inj whole
    exact ⟨[], text, cs, rfl, spelled, rfl, rest⟩

/-! Line breaks. -/

/-- A text that has tokens of its own has them also before another line. -/
theorem Lexed.split_line (front : Lexed o cs ts) {post : List Char} {us : List Lexeme}
    (line : ∀ c ∈ post.head?, c = '\n') (whole : Lexed o (cs ++ post) us) :
    ∃ vs, us = ts ++ vs ∧ Lexed (o + byteLength cs) post vs := by
  induction front generalizing us with
  | nil => exact ⟨us, rfl, whole⟩
  | gap blank _ ih =>
    obtain ⟨vs, rfl, behind⟩ := ih (whole.of_gap blank)
    rw [byteLength_cons, ← Nat.add_assoc]
    exact ⟨vs, rfl, behind⟩
  | @comment o text cs ts flat stop _ ih =>
    have stops : ∀ c ∈ (cs ++ post).head?, c = '\n' := by
      cases cs with
      | nil => exact line
      | cons c cs => exact stop
    rw [List.cons_append, List.append_assoc] at whole
    obtain ⟨vs, rfl, behind⟩ := ih (whole.of_comment flat stops)
    rw [← List.cons_append, byteLength_append, ← Nat.add_assoc]
    exact ⟨vs, rfl, behind⟩
  | @token o text cs t ts spelled apart _ ih =>
    rw [List.append_assoc] at whole
    obtain ⟨us, rfl, rest⟩ := whole.of_token (spelled.apart_append apart line)
    obtain ⟨vs, rfl, behind⟩ := ih rest
    rw [byteLength_append, ← Nat.add_assoc]
    exact ⟨vs, rfl, behind⟩

/-- A token that runs over a line break ends with a quotation. -/
theorem Shape.quote_behind {unbroken : Prop} {a b : List Char} (shape : Shape unbroken (a ++ '\n' :: b)) :
    '"' ∈ b := by
  generalize whole : a ++ '\n' :: b = all at shape
  have break_behind : '\n' :: b <:+ all := ⟨a, whole⟩
  cases shape with
  | solid all =>
    have blank := all '\n' (break_behind.subset List.mem_cons_self)
    exact absurd blank (by decide)
  | @quoted p q z ends flat =>
    have quote_behind : '"' :: z <:+ p ++ '"' :: (q ++ '"' :: z) := ⟨p ++ '"' :: q, by simp⟩
    rcases List.suffix_or_suffix_of_suffix break_behind quote_behind with inside | beyond
    · have mem := inside.subset (List.mem_cons_self (a := '\n') (l := b))
      rcases List.mem_cons.mp mem with same | back
      · exact absurd same (by decide)
      · exact absurd (ends '\n' (List.mem_append_right p back)) (by decide)
    · have mem := beyond.subset (List.mem_cons_self (a := '"') (l := z))
      exact (List.mem_cons.mp mem).resolve_left (by decide)

private theorem dropWhile_start {n : Nat} (behind : ∀ t ∈ ts, n ≤ t.start) :
    ts.dropWhile (·.start < n) = ts := by
  cases ts with
  | nil => rfl
  | cons t ts =>
    have out := behind t List.mem_cons_self
    rw [List.dropWhile_cons_of_neg (by simpa using out)]

/-- What lies behind a line that `b` follows: the line has tokens of its own and the next lines
have theirs, or a quotation runs over the end of the line and `ts` are behind it. -/
inductive BehindLine (o : Nat) (a b : List Char) (ts : List Lexeme) : Prop
  | parted {us : List Lexeme} (own : Lexed o a us) (behind : Lexed (o + byteLength a) b ts) :
      BehindLine o a b ts
  | quoted {front c : List Char} (split : b = front ++ c) (quote : '"' ∈ front)
      (behind : Lexed (o + byteLength (a ++ front)) c ts) : BehindLine o a b ts

theorem BehindLine.prepend {a b : List Char} (text : List Char)
    (own : ∀ {us}, Lexed (o + byteLength text) a us → ∃ vs, Lexed o (text ++ a) vs)
    (later : BehindLine (o + byteLength text) a b ts) : BehindLine o (text ++ a) b ts := by
  cases later with
  | parted line behind =>
    obtain ⟨vs, line⟩ := own line
    rw [Nat.add_assoc, ← byteLength_append] at behind
    exact .parted line behind
  | quoted split quote behind =>
    rw [Nat.add_assoc, ← byteLength_append, ← List.append_assoc] at behind
    exact .quoted split quote behind

theorem Lexed.behind_nothing {b : List Char} (lexed : Lexed o b ts) :
    BehindLine o [] b (ts.dropWhile (·.start < o + byteLength [])) := by
  refine .parted .nil ?_
  rw [byteLength_nil, Nat.add_zero, dropWhile_start fun t mem => (lexed.start_le t mem).1]
  exact lexed

/-- A comment holds no line break, so a line that it stands on ends at its end or behind it. -/
theorem split_comment {a b : List Char} (flat : ∀ c ∈ text, c ≠ '\n')
    (line : ∀ c ∈ b.head?, c = '\n') (whole : text ++ cs = a ++ b) :
    ∃ x, a = text ++ x ∧ cs = x ++ b := by
  rcases List.append_eq_append_iff.mp whole with here | ⟨x, rfl, rfl⟩
  · exact here
  · cases x with
    | nil => exact ⟨[], by simp, by simp⟩
    | cons c x => exact absurd (line c rfl) (flat c (by simp))

/-- A token ends on its line, or runs over the break. -/
theorem split_token {a b : List Char} (line : ∀ c ∈ b.head?, c = '\n')
    (whole : text ++ cs = a ++ b) : (∃ x, a = text ++ x ∧ cs = x ++ b) ∨
      ∃ x, text = a ++ '\n' :: x ∧ b = '\n' :: x ++ cs := by
  rcases List.append_eq_append_iff.mp whole with here | ⟨x, same, rfl⟩
  · exact .inl here
  · cases x with
    | nil => exact .inl ⟨[], by simp [same], rfl⟩
    | cons c x =>
      obtain rfl := line c rfl
      exact .inr ⟨x, same, rfl⟩

/-- The tokens that start behind a line. -/
theorem Lexed.behind (lexed : Lexed o cs ts) {b : List Char} (line : ∀ c ∈ b.head?, c = '\n') :
    ∀ {a : List Char}, cs = a ++ b →
      BehindLine o a b (ts.dropWhile (·.start < o + byteLength a)) := by
  induction lexed with
  | nil =>
    intro a whole
    obtain ⟨rfl, rfl⟩ := List.append_eq_nil_iff.mp whole.symm
    exact Lexed.nil.behind_nothing
  | @gap o c cs ts blank rest ih =>
    intro a whole
    rcases List.cons_eq_append_iff.mp whole with ⟨rfl, rfl⟩ | ⟨a, rfl, rfl⟩
    · exact (Lexed.gap blank rest).behind_nothing
    · have later := ih rfl
      rw [Nat.add_assoc, ← byteLength_cons] at later
      exact later.prepend [c] fun own => ⟨_, .gap blank own⟩
  | @comment o text cs ts flat stop rest ih =>
    intro a whole
    rcases List.cons_eq_append_iff.mp whole with ⟨rfl, rfl⟩ | ⟨a, rfl, same⟩
    · exact (Lexed.comment flat stop rest).behind_nothing
    · obtain ⟨x, rfl, rfl⟩ := split_comment flat line same
      have later := ih rfl
      rw [Nat.add_assoc, ← byteLength_append] at later
      refine later.prepend (';' :: text) fun own => ⟨_, .comment flat (fun c first => ?_) own⟩
      refine stop c ?_
      rw [List.head?_append, first]
      rfl
  | @token o text cs t ts spelled apart rest ih =>
    intro a whole
    rcases split_token line whole with ⟨x, rfl, rfl⟩ | ⟨x, rfl, rfl⟩
    · obtain ⟨c, more, rfl, solid, plain, found⟩ := apart
      have some := byteLength_pos (List.cons_ne_nil c (more ++ x))
      have inside : o < o + byteLength (c :: more ++ x) := Nat.lt_add_of_pos_right some
      have later := ih rfl
      rw [Nat.add_assoc, ← byteLength_append] at later
      rw [List.dropWhile_cons_of_pos (by simpa using inside)]
      exact later.prepend _ fun own =>
        ⟨_, .token spelled ⟨c, more, rfl, solid, plain, spelled.tokenAt_front found⟩ own⟩
    · cases a with
      | nil => exact (Lexed.token spelled apart rest).behind_nothing
      | cons c a =>
        -- The token begins on the line, and the others behind the break.
        refine .quoted (c := cs) rfl
          (List.mem_cons_of_mem _ spelled.shape.quote_behind) ?_
        have some := byteLength_pos (List.cons_ne_nil c a)
        have inside : o < o + byteLength (c :: a) := Nat.lt_add_of_pos_right some
        have others : ∀ u ∈ ts, o + byteLength (c :: a) ≤ u.start := by
          intro u mem
          have bound := (rest.start_le u mem).1
          rw [byteLength_append] at bound
          omega
        rw [List.dropWhile_cons_of_pos (by simpa using inside), dropWhile_start others]
        exact rest

end

end BlockTally.Listing
