import BlockTally.Proofs.Listing.Spelling
import BlockTally.Proofs.Text.Slice

/-! Lexing piece by piece. A text lexes to the same tokens wherever it stands, as long as what
follows does not run on its end; and what was lexed can be cut behind any of its tokens. Main
statements: `Lexes.append`, `Lexed.cut`. -/
namespace BlockTally.Listing
open Text

/-- The tokens of a text that starts at a byte offset. -/
inductive Lexed : Nat → List Char → List Lexeme → Prop
  | nil {o : Nat} : Lexed o [] []
  | gap {o : Nat} {c : Char} {cs : List Char} {ts : List Lexeme} (blank : isGap c = true)
      (rest : Lexed (o + c.utf8Size) cs ts) : Lexed o (c :: cs) ts
  | comment {o : Nat} {text cs : List Char} {ts : List Lexeme} (flat : ∀ c ∈ text, c ≠ '\n')
      (stop : ∀ c ∈ cs.head?, c = '\n') (rest : Lexed (o + byteLength (';' :: text)) cs ts) :
      Lexed o (';' :: (text ++ cs)) ts
  | token {o : Nat} {text cs : List Char} {t : Token} {ts : List Lexeme} (spelled : Spelling text t)
      (apart : ∃ c rest, text = c :: rest ∧ isGap c = false ∧ c ≠ ';' ∧
        tokenAt c (rest ++ cs) = some (t, rest.length))
      (rest : Lexed (o + byteLength text) cs ts) :
      Lexed o (text ++ cs) (⟨t, o, o + byteLength text⟩ :: ts)

/-! A comment is left where its line ends. -/

theorem line_stop (cs : List Char) : ∀ c ∈ (cs.dropWhile (· != '\n')).head?, c = '\n' :=
  fun c first => by simpa using dropWhile_stop _ cs c first

theorem drop_line (cs : List Char) :
    cs.drop (cs.takeWhile (· != '\n')).length = cs.dropWhile (· != '\n') := by
  have behind : (cs.takeWhile (· != '\n') ++ cs.dropWhile (· != '\n')).drop
      (cs.takeWhile (· != '\n')).length = cs.dropWhile (· != '\n') := List.drop_left
  rwa [List.takeWhile_append_dropWhile] at behind

private theorem lexed_of_lexFrom : ∀ (n : Nat) {o : Nat} {cs : List Char} {ts : List Lexeme},
    cs.length ≤ n → lexFrom o cs = .ok ts → Lexed o cs ts
  | _, o, [], ts, _, ok => by
    rw [lexFrom] at ok
    cases ok
    exact .nil
  | 0, o, c :: cs, ts, size, ok => by simp at size
  | n + 1, o, c :: cs, ts, size, ok => by
    simp only [List.length_cons, Nat.add_le_add_iff_right] at size
    rw [lexFrom] at ok
    split at ok
    · next blank => exact .gap blank (lexed_of_lexFrom n size ok)
    · next solid =>
      split at ok
      · next code =>
        subst code
        dsimp only at ok
        have short : (cs.dropWhile (· != '\n')).length ≤ n :=
          (List.dropWhile_suffix _).length_le.trans size
        rw [drop_line] at ok
        have rest := lexed_of_lexFrom n short ok
        have whole := Lexed.comment (fun c mem => by simpa using List.mem_takeWhile_imp mem)
          (line_stop cs) rest
        rwa [List.takeWhile_append_dropWhile] at whole
      · next plain =>
        split at ok
        · cases ok
        · next t k found =>
          dsimp only at ok
          split at ok
          · cases ok
          · next lexemes rest =>
            cases ok
            obtain ⟨inside, spelled⟩ := spelling_of_tokenAt found
            have short : (cs.drop k).length ≤ n := by simp; omega
            have whole := Lexed.token spelled ⟨c, cs.take k, rfl, by simpa using solid, plain, ?_⟩
              (lexed_of_lexFrom n short rest)
            · rwa [List.cons_append, List.take_append_drop] at whole
            · rw [List.take_append_drop, List.length_take, Nat.min_eq_left inside]
              exact found

theorem lexFrom_comment {text cs : List Char} (flat : ∀ c ∈ text, c ≠ '\n')
    (stop : ∀ c ∈ cs.head?, c = '\n') (o : Nat) :
    lexFrom o (';' :: (text ++ cs)) = lexFrom (o + byteLength (';' :: text)) cs := by
  have line : (text ++ cs).takeWhile (· != '\n') = text :=
    takeWhile_append_stop (by simpa using flat) (by simpa using stop)
  rw [lexFrom, if_neg (by decide), if_pos rfl]
  simp only [line, List.drop_left]

theorem lexFrom_token {c : Char} {text cs : List Char} {t : Token} (solid : isGap c = false)
    (plain : c ≠ ';') (found : tokenAt c (text ++ cs) = some (t, text.length)) (o : Nat) :
    lexFrom o (c :: text ++ cs) = (lexFrom (o + byteLength (c :: text)) cs).map
      (⟨t, o, o + byteLength (c :: text)⟩ :: ·) := by
  rw [List.cons_append, lexFrom, if_neg (by simp [solid]), if_neg plain, found]
  simp only [List.drop_left, List.take_left]
  cases lexFrom (o + byteLength (c :: text)) cs <;> rfl

theorem Lexed.lexFrom {o : Nat} {cs : List Char} {ts : List Lexeme} (lexed : Lexed o cs ts) :
    lexFrom o cs = .ok ts := by
  induction lexed with
  | nil => rw [Listing.lexFrom]
  | gap blank _ ih => rw [Listing.lexFrom, if_pos blank, ih]
  | comment flat stop _ ih => rw [lexFrom_comment flat stop, ih]
  | token spelled apart _ ih =>
    obtain ⟨c, rest, rfl, solid, plain, found⟩ := apart
    rw [lexFrom_token solid plain found, ih]
    rfl

theorem lexFrom_eq_ok {o : Nat} {cs : List Char} {ts : List Lexeme} :
    lexFrom o cs = .ok ts ↔ Lexed o cs ts :=
  ⟨lexed_of_lexFrom _ (Nat.le_refl _), Lexed.lexFrom⟩

def Lexeme.shift (n : Nat) (t : Lexeme) : Lexeme := ⟨t.token, n + t.start, n + t.stop⟩

@[simp] theorem Lexeme.shift_token (n : Nat) (t : Lexeme) : (t.shift n).token = t.token := rfl

theorem Lexeme.shift_shift (n k : Nat) (t : Lexeme) : (t.shift k).shift n = t.shift (n + k) := by
  simp [Lexeme.shift, Nat.add_assoc]

theorem Lexeme.shift_zero (t : Lexeme) : t.shift 0 = t := by simp [Lexeme.shift]

theorem map_token_shift (n : Nat) (ts : List Lexeme) :
    (ts.map (·.shift n)).map (·.token) = ts.map (·.token) := by
  simp [Function.comp_def]

/-- Wherever `cs` stands before a text that may follow it, its tokens are `ts`. -/
def Lexes (follows : List Char → Prop) (cs : List Char) (ts : List Lexeme) : Prop :=
  ∀ o post us, follows post → Lexed (o + byteLength cs) post us →
    Lexed o (cs ++ post) (ts.map (·.shift o) ++ us)

section
variable {follows followed : List Char → Prop} {a b : List Char} {ts us : List Lexeme}

theorem Lexes.nil : Lexes follows [] [] := fun _ _ _ _ lexed => lexed

theorem Lexes.imp (lexes : Lexes followed a ts) (less : ∀ post, follows post → followed post) :
    Lexes follows a ts := fun o post us ok => lexes o post us (less post ok)

theorem Lexes.append (first : Lexes followed a ts) (second : Lexes follows b us)
    (between : ∀ post, follows post → followed (b ++ post)) :
    Lexes follows (a ++ b) (ts ++ us.map (·.shift (byteLength a))) := by
  intro o post vs ok lexed
  have rest := second (o + byteLength a) post vs ok (by
    rwa [byteLength_append, ← Nat.add_assoc] at lexed)
  have whole := first o _ _ (between post ok) rest
  simpa [Lexeme.shift_shift, Function.comp_def] using whole

theorem Lexes.gap {c : Char} (blank : isGap c = true) (lexes : Lexes follows a ts) :
    Lexes follows (c :: a) (ts.map (·.shift c.utf8Size)) := by
  intro o post us ok lexed
  rw [byteLength_cons, ← Nat.add_assoc] at lexed
  have rest := lexes (o + c.utf8Size) post us ok lexed
  refine .gap blank ?_
  simpa [Lexeme.shift_shift, Function.comp_def] using rest

theorem lexes_gap {c : Char} (blank : isGap c = true) : Lexes follows [c] [] := by
  intro o post us _ lexed
  exact .gap blank (by simpa using lexed)

theorem Spelling.lexes {t : Token} (spelled : Spelling a t) :
    Lexes Ends a [⟨t, 0, byteLength a⟩] := by
  intro o post us ends lexed
  exact .token spelled (spelled.tokenAt_append ends) lexed

/-- A comment, which ends with its line. -/
theorem lexes_comment (flat : ∀ c ∈ a, c ≠ '\n') :
    Lexes (fun post => ∀ c ∈ post.head?, c = '\n') (';' :: a) [] := by
  intro o post us stop lexed
  exact .comment flat stop lexed

end

theorem Lexed.start_le {o : Nat} {cs : List Char} {ts : List Lexeme} (lexed : Lexed o cs ts) :
    ∀ t ∈ ts, o ≤ t.start ∧ t.start < t.stop ∧ t.stop ≤ o + byteLength cs := by
  induction lexed with
  | nil => simp
  | gap _ _ ih =>
    intro t mem
    have bounds := ih t mem
    rw [byteLength_cons]
    omega
  | comment _ _ _ ih =>
    intro t mem
    have bounds := ih t mem
    simp only [byteLength_cons, byteLength_append] at bounds ⊢
    omega
  | @token o text cs _ ts spelled apart _ ih =>
    obtain ⟨c, rest, rfl, -⟩ := apart
    have some := byteLength_pos (List.cons_ne_nil c rest)
    intro t mem
    rw [byteLength_append]
    rcases List.mem_cons.mp mem with rfl | mem
    · simp only
      omega
    · have bounds := ih t mem
      omega

theorem Lexed.ordered {o : Nat} {cs : List Char} {ts : List Lexeme} (lexed : Lexed o cs ts) :
    ts.Pairwise (·.stop ≤ ·.start) := by
  induction lexed with
  | nil => exact .nil
  | gap _ _ ih => exact ih
  | comment _ _ _ ih => exact ih
  | token _ _ rest ih => exact .cons (fun u mem => (rest.start_le u mem).1) ih

/-- What was lexed can be cut behind any of its tokens: the front lexes to the tokens up to there
wherever it stands, and the rest to the others. -/
theorem Lexed.cut {o : Nat} {cs : List Char} {ts : List Lexeme} (lexed : Lexed o cs ts) :
    ∀ {front : List Lexeme} {t : Lexeme} {back : List Lexeme}, ts = front ++ t :: back →
      ∃ a b us, cs = a ++ b ∧ t.stop = o + byteLength a ∧ front ++ [t] = us.map (·.shift o) ∧
        Lexes Ends a us ∧ Lexed (o + byteLength a) b back := by
  induction lexed with
  | nil => simp
  | @gap o c cs ts blank _ ih =>
    intro front t back whole
    obtain ⟨a, b, us, rfl, stop, same, lexes, rest⟩ := ih whole
    refine ⟨c :: a, b, us.map (·.shift c.utf8Size), rfl, ?_, ?_, lexes.gap blank, ?_⟩
    · rw [byteLength_cons, stop, Nat.add_assoc]
    · simp [same, Lexeme.shift_shift, Function.comp_def]
    · rwa [byteLength_cons, ← Nat.add_assoc]
  | @comment o text cs ts flat stop lexed ih =>
    intro front t back whole
    obtain ⟨a, b, us, rfl, stops, same, lexes, rest⟩ := ih whole
    have bounds := lexed.start_le t (by simp [whole])
    obtain ⟨c, a, rfl⟩ : ∃ c a', a = c :: a' := by
      refine List.exists_cons_of_ne_nil fun empty => ?_
      rw [empty, byteLength_nil] at stops
      omega
    refine ⟨';' :: text ++ c :: a, b, us.map (·.shift (byteLength (';' :: text))), by simp,
      ?_, ?_, ?_, ?_⟩
    · rw [byteLength_append, stops, Nat.add_assoc]
    · simp [same, Lexeme.shift_shift, Function.comp_def]
    · refine (lexes_comment flat).append lexes fun post _ d first => ?_
      exact stop d first
    · rwa [byteLength_append, ← Nat.add_assoc]
  | @token o text cs t' ts spelled apart lexed ih =>
    intro front t back whole
    cases front with
    | nil =>
      cases whole
      refine ⟨text, cs, [⟨t', 0, byteLength text⟩], rfl, rfl, ?_, spelled.lexes, lexed⟩
      simp [Lexeme.shift]
    | cons u front =>
      obtain ⟨first, others⟩ := List.cons.inj whole
      obtain ⟨a, b, us, rfl, stops, same, lexes, rest⟩ := ih others
      have bounds := lexed.start_le t (by simp [others])
      obtain ⟨d, a, rfl⟩ : ∃ d a', a = d :: a' := by
        refine List.exists_cons_of_ne_nil fun empty => ?_
        rw [empty, byteLength_nil] at stops
        omega
      refine ⟨text ++ d :: a, b, ⟨t', 0, byteLength text⟩ :: us.map (·.shift (byteLength text)),
        by simp, ?_, ?_, ?_, ?_⟩
      · rw [byteLength_append, stops, Nat.add_assoc]
      · simp [← first, same, Lexeme.shift, Function.comp_def, Nat.add_assoc]
      · intro o' post vs ends lexed'
        obtain ⟨c, text', rfl, solid, plain, found⟩ := apart
        have alike : (d :: a ++ post).head? = (d :: a ++ b).head? := rfl
        have again := spelled.headTest.congr alike found
        rw [byteLength_append, ← Nat.add_assoc] at lexed'
        have rest' := lexes _ post vs ends lexed'
        have here := Lexed.token spelled ⟨c, text', rfl, solid, plain, again⟩ rest'
        simpa [Lexeme.shift, Function.comp_def, Nat.add_assoc] using here
      · rwa [byteLength_append, ← Nat.add_assoc]

theorem Lexed.shift {o : Nat} {cs : List Char} {ts : List Lexeme} (lexed : Lexed o cs ts) (n : Nat) :
    Lexed (n + o) cs (ts.map (·.shift n)) := by
  induction lexed with
  | nil => exact .nil
  | gap blank _ ih =>
    rw [← Nat.add_assoc] at ih
    exact .gap blank ih
  | comment flat stop _ ih =>
    rw [← Nat.add_assoc] at ih
    exact .comment flat stop ih
  | token spelled apart _ ih =>
    rw [← Nat.add_assoc] at ih
    have here := Lexed.token spelled apart ih
    simpa [Lexeme.shift, Nat.add_assoc] using here

/-- A token stays the same when another line follows what is behind it. -/
theorem Spelling.apart_append {text cs post : List Char} {t : Token} (spelled : Spelling text t)
    (apart : ∃ c rest, text = c :: rest ∧ isGap c = false ∧ c ≠ ';' ∧
      tokenAt c (rest ++ cs) = some (t, rest.length)) (line : ∀ c ∈ post.head?, c = '\n') :
    ∃ c rest, text = c :: rest ∧ isGap c = false ∧ c ≠ ';' ∧
      tokenAt c (rest ++ (cs ++ post)) = some (t, rest.length) := by
  obtain ⟨c, rest, rfl, solid, plain, found⟩ := apart
  refine ⟨c, rest, rfl, solid, plain, ?_⟩
  cases cs with
  | nil =>
    have ends : Ends post := by
      intro d first
      rw [line d first]
      decide
    exact spelled.headTest.of_ends ends
  | cons d cs =>
    have alike : (d :: cs ++ post).head? = (d :: cs).head? := rfl
    exact spelled.headTest.congr alike found

/-- What was lexed by itself may be followed by another line. -/
theorem Lexed.append_line {o : Nat} {cs post : List Char} {ts us : List Lexeme}
    (lexed : Lexed o cs ts) (line : ∀ c ∈ post.head?, c = '\n')
    (rest : Lexed (o + byteLength cs) post us) : Lexed o (cs ++ post) (ts ++ us) := by
  induction lexed with
  | nil => exact rest
  | gap blank _ ih =>
    rw [byteLength_cons, ← Nat.add_assoc] at rest
    exact .gap blank (ih rest)
  | @comment o text cs ts flat stop _ ih =>
    rw [← List.cons_append, byteLength_append, ← Nat.add_assoc] at rest
    have tail := ih rest
    rw [List.cons_append, List.append_assoc]
    refine .comment flat ?_ tail
    cases cs with
    | nil => exact line
    | cons c cs => exact stop
  | @token o text cs t ts spelled apart _ ih =>
    rw [byteLength_append, ← Nat.add_assoc] at rest
    have tail := ih rest
    rw [List.append_assoc, List.cons_append]
    exact .token spelled (spelled.apart_append apart line) tail

end BlockTally.Listing
