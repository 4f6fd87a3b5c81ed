import BlockTally.Proofs.Listing.Keeps

/-! Where tokens come from. A run of tokens of a text takes a piece of it that lexes by itself, and
its payloads can be spelled again. Main statements: `Source.raw`, `Source.lettered`. -/
namespace BlockTally.Listing
open Text

/-- What is left of the tokens of a text. -/
def Source (src : List Char) (ts : List Lexeme) : Prop := ∃ before, Lexed 0 src (before ++ ts)

section
variable {src : List Char} {ts us : List Lexeme}

theorem Source.suffix (source : Source src us) (suffix : ts <:+ us) : Source src ts := by
  obtain ⟨before, lexed⟩ := source
  obtain ⟨front, rfl⟩ := suffix
  exact ⟨before ++ front, by rwa [List.append_assoc]⟩

theorem Source.right (source : Source src (ts ++ us)) : Source src us :=
  source.suffix (List.suffix_append ts us)

/-- Gaps and comments before the first token. -/
theorem Lexed.lead {o : Nat} {cs : List Char} {t : Lexeme} (lexed : Lexed o cs (t :: ts)) :
    ∃ gap a, cs = gap ++ a ∧ t.start = o + byteLength gap ∧ Lexed t.start a (t :: ts) := by
  generalize whole : t :: ts = all at lexed
  induction lexed with
  | nil => cases whole
  | @gap o c cs _ blank _ ih =>
    obtain ⟨gap, a, rfl, start, rest⟩ := ih whole
    exact ⟨c :: gap, a, rfl, by rw [start, byteLength_cons, Nat.add_assoc], rest⟩
  | @comment o text cs _ flat stop _ ih =>
    obtain ⟨gap, a, rfl, start, rest⟩ := ih whole
    refine ⟨';' :: text ++ gap, a, by simp, ?_, rest⟩
    rw [start, byteLength_append, Nat.add_assoc]
  | @token o text cs _ _ spelled apart rest _ =>
    obtain ⟨rfl, rfl⟩ := List.cons.inj whole
    exact ⟨[], text ++ cs, rfl, rfl, .token spelled apart rest⟩

/-- The text of the first token, where nothing stands before it. -/
theorem Lexed.first_of_start {o : Nat} {cs : List Char} {t : Lexeme} (lexed : Lexed o cs (t :: ts))
    (start : t.start = o) : ∃ text post, cs = text ++ post ∧ Spelling text t.token ∧
      t.stop = o + byteLength text ∧ ∃ c more, text = c :: more ∧ c ≠ '\n' := by
  cases lexed with
  | @gap _ c cs _ _ rest =>
    have behind := (rest.start_le t List.mem_cons_self).1
    have := c.utf8Size_pos
    omega
  | @comment _ text cs _ _ _ rest =>
    have behind := (rest.start_le t List.mem_cons_self).1
    have := byteLength_pos (List.cons_ne_nil ';' text)
    omega
  | @token _ text cs _ _ spelled apart rest =>
    obtain ⟨c, more, rfl, solid, -⟩ := apart
    refine ⟨c :: more, cs, rfl, spelled, rfl, c, more, rfl, ?_⟩
    rintro rfl
    exact absurd solid (by decide)

/-- What is left stands at the start of its first token. -/
theorem Source.place {t : Lexeme} (source : Source src (t :: ts)) :
    ∃ pre a, src = pre ++ a ∧ t.start = byteLength pre ∧ Lexed t.start a (t :: ts) := by
  obtain ⟨before, lexed⟩ := source
  rcases List.eq_nil_or_concat before with rfl | ⟨front, u, rfl⟩
  · obtain ⟨gap, a, rfl, start, rest⟩ := Lexed.lead lexed
    exact ⟨gap, a, rfl, by rw [start, Nat.zero_add], rest⟩
  · have split : front.concat u ++ t :: ts = front ++ u :: t :: ts := by simp
    obtain ⟨a, b, vs, rfl, -, -, -, rest⟩ := lexed.cut split
    obtain ⟨gap, c, rfl, start, rest⟩ := rest.lead
    refine ⟨a ++ gap, c, by simp, ?_, rest⟩
    rw [start, byteLength_append, Nat.zero_add]

/-- The text of a run of tokens, which stands at a place `o`. -/
theorem Source.raw (run more : List Lexeme) (source : Source src (run ++ more)) :
    ∃ vs o, Raw (spanText src run) vs ∧ run = vs.map (·.shift o) ∧
      (run ≠ [] → At src o (spanText src run).toList) := by
  rcases List.eq_nil_or_concat run with rfl | ⟨front, t, rfl⟩
  · exact ⟨[], 0, raw_nothing, rfl, by simp⟩
  · rw [List.concat_eq_append] at source ⊢
    obtain ⟨first, others, split⟩ := List.exists_cons_of_ne_nil
      (List.append_ne_nil_of_right_ne_nil front (List.cons_ne_nil t []))
    rw [split, List.cons_append] at source
    obtain ⟨pre, a, rfl, start, lexed⟩ := source.place
    have cut : first :: (others ++ more) = front ++ t :: more := by
      rw [← List.cons_append, ← split, List.append_assoc, List.singleton_append]
    obtain ⟨b, c, vs, rfl, stop, same, lexes, -⟩ := lexed.cut cut
    have head : (front ++ [t]).head? = some first := by rw [split, List.head?_cons]
    have last : (front ++ [t]).getLast? = some t := List.getLast?_concat
    have text : spanText (pre ++ (b ++ c)) (front ++ [t]) = String.ofList b := by
      apply spanText_eq
      rw [span?, head, last]
      change slice? _ first.start t.stop = _
      rw [stop, start, slice?_append]
    have alone := lexes 0 [] [] Ends.nil .nil
    have unshifted : vs.map (·.shift 0) = vs := by simp [Lexeme.shift_zero]
    rw [List.append_nil, List.append_nil, unshifted] at alone
    rw [text]
    refine ⟨vs, first.start, ⟨?_, ?_, ?_, ?_⟩, same, fun _ => ⟨pre, c, ?_, start.symm⟩⟩
    · rwa [String.toList_ofList]
    · intro v here
      rw [same, List.head?_map, here] at head
      have first_start := congrArg Lexeme.start (Option.some.inj head)
      simp only [Lexeme.shift] at first_start
      omega
    · intro v here
      rw [same, List.getLast?_map, here] at last
      have last_stop := congrArg Lexeme.stop (Option.some.inj last)
      simp only [Lexeme.shift] at last_stop
      rw [String.toList_ofList]
      omega
    · rintro rfl
      simp at same
    · rw [String.toList_ofList]

/-- The tokens that are left take text of the source. -/
theorem Source.span? (run more : List Lexeme) (source : Source src (run ++ more)) :
    span? src run = some (spanText src run) := by
  obtain ⟨vs, o, raw, same, place⟩ := source.raw run more
  rcases eq_or_ne run [] with rfl | some
  · rfl
  · have span := raw.span? (place some)
    rwa [← same] at span

theorem At.between {a : List Char} {p o : Nat} (first : At src p []) (second : At src o a)
    (le : p ≤ o) : ∃ pre mid post, src = pre ++ (mid ++ (a ++ post)) ∧ byteLength pre = p ∧
      p + byteLength mid = o := by
  obtain ⟨pre, rest, rfl, rfl⟩ := first
  obtain ⟨front, post, same, rfl⟩ := second
  rw [List.nil_append] at same ⊢
  rcases List.append_eq_append_iff.mp same with ⟨mid, rfl, rest⟩ | ⟨mid, rfl, rest⟩
  · exact ⟨pre, mid, post, by rw [rest], rfl, (byteLength_append pre mid).symm⟩
  · obtain rfl : mid = [] := by
      by_contra some
      have := byteLength_pos some
      rw [byteLength_append] at le
      omega
    exact ⟨front, [], post, by simp [rest], by simp, by simp⟩

/-- A token that starts on the line of an earlier place starts in the first line of its run. -/
theorem onLine {text : String} {vs : List Lexeme} {o p : Nat} (raw : Raw text vs)
    (place : At src o text.toList) (earlier : At src p []) (le : p ≤ o) :
    ∀ v ∈ vs, (v.shift o).start < lineEnd src p → v.start < firstLine text.toList := by
  obtain ⟨pre, mid, post, rfl, rfl, length⟩ := earlier.between place le
  intro v mem line
  have bounds := raw.lexed.start_le v mem
  rw [lineEnd_behind] at line
  simp only [Lexeme.shift] at line
  obtain ⟨-, whole⟩ := firstLine_reaches (a := mid) (b := text.toList ++ post) (by omega)
  rw [whole] at line
  exact lt_firstLine_of_append (b := post) (by omega) (by omega)

/-- Between two places of a line no line ends. -/
theorem flat_onLine {piece : List Char} {o p q : Nat} (earlier : At src p [])
    (line : o < lineEnd src p) (place : At src q piece) (le : p ≤ q)
    (short : q + byteLength piece ≤ o) : ∀ c ∈ piece, c ≠ '\n' := by
  obtain ⟨pre, mid, post, rfl, rfl, length⟩ := earlier.between place le
  rw [lineEnd_behind, ← List.append_assoc] at line
  obtain ⟨flat, -⟩ := firstLine_reaches (a := mid ++ piece) (b := post) (by
    rw [byteLength_append]
    omega)
  exact fun c mem => flat c (List.mem_append_right _ mem)

/-- What the payload of a token can be. -/
def Lettered : Token → Prop
  | .globalName name | .localName name | .label name | .quoted name => Unquoted name
  | .nodeName name => NodeName name
  | _ => True

theorem NameSpelling.unquoted {cs : List Char} {name : String} (named : NameSpelling cs name) :
    Unquoted name := by
  cases named with
  | @bare cs some plain =>
    intro c mem quote
    rw [String.toList_ofList] at mem
    have plain := plain c mem
    rw [quote] at plain
    revert plain
    decide
  | @quoted cs inside =>
    rw [Unquoted, String.toList_ofList]
    exact inside

theorem wordToken?_cases {run : List Char} {t : Token} (known : wordToken? run = some t) :
    (∃ text, t = .word text) ∨ t = .punct .ellipsis ∨ t = .comdatRef ∨ ∃ value, t = .int value := by
  unfold wordToken? at known
  split at known
  · exact .inl ⟨_, (Option.some.inj known).symm⟩
  split at known
  · exact .inr (.inl (Option.some.inj known).symm)
  split at known
  · exact .inr (.inr (.inl (Option.some.inj known).symm))
  · obtain ⟨value, -, rfl⟩ := Option.map_eq_some_iff.mp known
    exact .inr (.inr (.inr ⟨value, rfl⟩))

theorem Spelling.lettered {cs : List Char} {t : Token} (spelled : Spelling cs t) : Lettered t := by
  cases spelled with
  | globalName named => exact named.unquoted
  | localName named => exact named.unquoted
  | nodeName letter plain => exact ⟨_, _, String.toList_ofList, letter, plain⟩
  | quotedLabel inside => exact (NameSpelling.quoted inside).unquoted
  | quoted inside => exact (NameSpelling.quoted inside).unquoted
  | label plain => exact (NameSpelling.bare (List.cons_ne_nil _ _) plain).unquoted
  | word plain known =>
    rcases wordToken?_cases known with ⟨_, rfl⟩ | rfl | rfl | ⟨_, rfl⟩ <;> trivial
  | _ => trivial

theorem Lexed.lettered {o : Nat} {cs : List Char} (lexed : Lexed o cs ts) :
    ∀ t ∈ ts, Lettered t.token := by
  induction lexed with
  | nil => simp
  | gap _ _ ih => exact ih
  | comment _ _ _ ih => exact ih
  | token spelled _ _ ih => exact List.forall_mem_cons.mpr ⟨spelled.lettered, ih⟩

theorem Source.lettered (source : Source src ts) : ∀ t ∈ ts, Lettered t.token := by
  obtain ⟨before, lexed⟩ := source
  exact fun t mem => lexed.lettered t (List.mem_append_right _ mem)

end

end BlockTally.Listing
