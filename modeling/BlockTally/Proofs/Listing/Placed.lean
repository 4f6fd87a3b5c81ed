import BlockTally.Listing.Entity
import BlockTally.Proofs.Listing.Spells
import BlockTally.Proofs.Listing.Takes

/-! Pieces of a text in their place. The writer describes the tokens that a piece has wherever it
stands; a step of reading is then followed over the tokens that fit a description. Main statements:
`Describes.append`, `Accepts.bind`, `accepts_loop`, and `Raw.span?` for text that is kept as it is. -/
namespace BlockTally.Listing
open Text Read

/-- The piece stands in the text from a byte on. -/
def At (src : List Char) (o : Nat) (piece : List Char) : Prop :=
  ∃ pre post, src = pre ++ (piece ++ post) ∧ byteLength pre = o

section
variable {src a b : List Char} {o : Nat}

theorem At.left (place : At src o (a ++ b)) : At src o a := by
  obtain ⟨pre, post, rfl, rfl⟩ := place
  exact ⟨pre, b ++ post, by simp, rfl⟩

theorem At.right (place : At src o (a ++ b)) : At src (o + byteLength a) b := by
  obtain ⟨pre, post, rfl, rfl⟩ := place
  exact ⟨pre ++ a, post, by simp, byteLength_append pre a⟩

theorem At.slice? (place : At src o a) :
    Text.slice? src o (o + byteLength a) = some (String.ofList a) := by
  obtain ⟨pre, post, rfl, rfl⟩ := place
  exact slice?_append pre a post

theorem At.lineEnd? (place : At src o (a ++ '\n' :: b)) :
    Text.lineEnd? src o = some (o + firstLine a) := by
  obtain ⟨pre, post, rfl, rfl⟩ := place
  rw [List.append_assoc, List.cons_append]
  exact lineEnd?_append pre a (b ++ post)

end

/-- The text of these tokens, for tokens that the source has. -/
def spanText (src : List Char) (ts : List Lexeme) : String := (span? src ts).getD ""

section
variable {σ : Type} {src : List Char} {us ts rest : List Lexeme} {s s' : σ} {text : String}

theorem spanText_eq (found : span? src us = some text) : spanText src us = text := by
  rw [spanText, found, Option.getD_some]

theorem reads_readSpan : Reads (readSpan src us) ts s text rest s' ↔
    span? src us = some text ∧ rest = ts ∧ s' = s := reads_present

theorem Reads.spanned (read : Reads (readSpan src us) ts s text rest s') :
    text = spanText src us ∧ rest = ts ∧ s' = s := by
  obtain ⟨found, rfl, rfl⟩ := reads_readSpan.mp read
  exact ⟨(spanText_eq found).symm, rfl, rfl⟩

end

/-- A text by itself, from its first token to its last. -/
structure Raw (text : String) (ts : List Lexeme) : Prop where
  lexed : Lexed 0 text.toList ts
  starts : ∀ t ∈ ts.head?, t.start = 0
  stops : ∀ t ∈ ts.getLast?, t.stop = byteLength text.toList
  filled : ts = [] → text = ""

theorem raw_nothing : Raw "" [] := ⟨.nil, nofun, nofun, fun _ => rfl⟩

section
variable {text : String} {ts : List Lexeme}

theorem Raw.lexes (raw : Raw text ts) : Lexes Ends text.toList ts := by
  cases last : ts.getLast? with
  | none =>
    obtain rfl := List.getLast?_eq_none_iff.mp last
    rw [raw.filled rfl]
    exact .nil
  | some t =>
    obtain ⟨front, split⟩ := List.getLast?_eq_some_iff.mp last
    obtain ⟨a, b, us, whole, stop, same, lexes, -⟩ := raw.lexed.cut split
    have all := raw.stops t last
    have size : byteLength b = 0 := by
      rw [whole, byteLength_append] at all
      omega
    obtain rfl : b = [] := by
      by_contra some
      have := byteLength_pos some
      omega
    rw [List.append_nil] at whole
    have here : us = ts := by
      rw [← split] at same
      simpa [Lexeme.shift_zero] using same.symm
    rwa [whole, ← here]

theorem Spelling.raw {t : Token} (spelled : Spelling text.toList t) :
    Raw text [⟨t, 0, byteLength text.toList⟩] := by
  have lexed := spelled.lexes 0 [] [] Ends.nil .nil
  rw [List.append_nil, List.append_nil] at lexed
  refine ⟨by simpa [Lexeme.shift] using lexed, ?_, ?_, nofun⟩
  · rintro _ ⟨⟩
    rfl
  · rintro _ ⟨⟩
    rfl

/-- The tokens of a text by itself. -/
def tokensOf (text : String) : List Token :=
  match lex text.toList with
  | .ok ts => ts.map (·.token)
  | .error _ => []

theorem Raw.tokensOf_eq (raw : Raw text ts) : tokensOf text = ts.map (·.token) := by
  rw [tokensOf, lex, raw.lexed.lexFrom]

theorem Raw.span? (raw : Raw text ts) {src : List Char} {o : Nat} (place : At src o text.toList) :
    span? src (ts.map (·.shift o)) = some text := by
  unfold Listing.span?
  rw [List.head?_map, List.getLast?_map]
  cases first : ts.head? with
  | none =>
    obtain rfl := List.head?_eq_none_iff.mp first
    exact congrArg some (raw.filled rfl).symm
  | some t =>
    obtain ⟨u, last⟩ : ∃ u, ts.getLast? = some u := by
      cases last : ts.getLast? with
      | none =>
        rw [List.getLast?_eq_none_iff.mp last] at first
        cases first
      | some u => exact ⟨u, rfl⟩
    have start := raw.starts t first
    have stop := raw.stops u last
    rw [last]
    simp only [Option.map_some, Lexeme.shift, start, stop, Nat.add_zero]
    rw [place.slice?, String.ofList_toList]

end

/-! Descriptions of tokens. -/

abbrev Described := List Lexeme → Prop

/-- Just these tokens. -/
def Of (toks : List Token) : Described := fun ts => ts.map (·.token) = toks

/-- These tokens, which take just this text. -/
def Spanning (src : List Char) (text : String) (toks : List Token) : Described := fun ts =>
  ts.map (·.token) = toks ∧ span? src ts = some text

/-- One after the other. -/
def Then (first second : Described) : Described := fun ts =>
  ∃ a b, ts = a ++ b ∧ first a ∧ second b

/-- One for each item. -/
def Each {ι : Type} (item : ι → Described) : List ι → Described
  | [] => fun ts => ts = []
  | i :: items => Then (item i) (Each item items)

/-- Wherever the text stands in `src`, its tokens fit the description. -/
def Describes (src : List Char) (follows : List Char → Prop) (text : String) (desc : Described) :
    Prop :=
  ∃ ts, Lexes follows text.toList ts ∧
    ∀ o, At src o text.toList → desc (ts.map (·.shift o))

section
variable {src : List Char} {follows followed : List Char → Prop} {a b : String}
variable {first second : Described} {toks : List Token}

theorem Spells.describes (spells : Spells follows a toks) : Describes src follows a (Of toks) := by
  obtain ⟨ts, lexes, rfl⟩ := spells
  exact ⟨ts, lexes, fun o _ => map_token_shift o ts⟩

theorem Raw.describes {ts : List Lexeme} (raw : Raw a ts) :
    Describes src Ends a (Spanning src a (ts.map (·.token))) :=
  ⟨ts, raw.lexes, fun o place => ⟨map_token_shift o ts, raw.span? place⟩⟩

theorem Describes.imp (describes : Describes src followed a first)
    (less : ∀ post, follows post → followed post) (more : ∀ ts, first ts → second ts) :
    Describes src follows a second := by
  obtain ⟨ts, lexes, fits⟩ := describes
  exact ⟨ts, lexes.imp less, fun o place => more _ (fits o place)⟩

theorem Describes.append (here : Describes src followed a first)
    (there : Describes src follows b second)
    (between : ∀ post, follows post → followed (b.toList ++ post)) :
    Describes src follows (a ++ b) (Then first second) := by
  obtain ⟨ts, lexes, fits⟩ := here
  obtain ⟨us, lexes', fits'⟩ := there
  refine ⟨_, String.toList_append ▸ lexes.append lexes' between, fun o place => ?_⟩
  rw [String.toList_append] at place
  refine ⟨ts.map (·.shift o), us.map (·.shift (o + byteLength a.toList)), ?_, fits o place.left,
    fits' _ place.right⟩
  simp [Lexeme.shift_shift, Function.comp_def]

/-- A gap before the text. -/
theorem Describes.leading (gap : Spells Anywhere b []) (here : Describes src follows a first) :
    Describes src follows (b ++ a) first := by
  have both : Describes src follows (b ++ a) (Then (Of []) first) :=
    gap.describes.append here fun _ _ => trivial
  refine both.imp (fun _ => id) ?_
  rintro ts ⟨front, back, rfl, none, fits⟩
  obtain rfl := List.map_eq_nil_iff.mp none
  exact fits

/-- A gap behind the text. -/
theorem Describes.trailing (here : Describes src followed a first) (gap : Spells follows b [])
    (between : ∀ post, follows post → followed (b.toList ++ post)) :
    Describes src follows (a ++ b) first := by
  have both : Describes src follows (a ++ b) (Then first (Of [])) :=
    here.append gap.describes between
  refine both.imp (fun _ => id) ?_
  rintro ts ⟨front, back, rfl, fits, none⟩
  obtain rfl := List.map_eq_nil_iff.mp none
  rwa [List.append_nil]

end

/-! Reading what fits a description. -/

/-- From a state with `P` the step takes what fits the description before any rest that `stop`
allows; of its result and the new state `Q` holds. -/
def Accepts {σ α : Type} (m : Read σ α) (desc : Described) (stop : List Lexeme → Prop)
    (P : σ → Prop) (Q : α → σ → Prop) : Prop :=
  ∀ ts rest s, desc ts → stop rest → P s → ∃ a s', Reads m (ts ++ rest) s a rest s' ∧ Q a s'

section
variable {σ α β : Type} {m : Read σ α} {f : α → Read σ β} {a : α}
variable {first second : Described} {stop stop' : List Lexeme → Prop}
variable {P : σ → Prop} {Q : α → σ → Prop} {R : β → σ → Prop}

theorem Takes.accepts {toks : List Token} {ends : List Token → Prop} {P' : σ → Prop}
    (takes : Takes m toks ends P a P') :
    Accepts m (Of toks) (fun rest => ends (rest.map (·.token))) P fun x s => x = a ∧ P' s := by
  intro ts rest s fits ok holds
  obtain ⟨s', read, known⟩ := takes ts rest s fits ok holds
  exact ⟨a, s', read, rfl, known⟩

theorem Accepts.bind (here : Accepts m first stop P Q)
    (there : ∀ a, Accepts (f a) second stop' (Q a) R)
    (between : ∀ ts rest, second ts → stop' rest → stop (ts ++ rest)) :
    Accepts (m >>= f) (Then first second) stop' P R := by
  rintro _ rest s ⟨front, back, rfl, fits, fits'⟩ ok holds
  obtain ⟨a, t, read, known⟩ := here front (back ++ rest) s fits (between back rest fits' ok) holds
  obtain ⟨b, s', read', known'⟩ := there a back rest t fits' ok known
  rw [List.append_assoc]
  exact ⟨b, s', reads_bind.mpr ⟨a, _, t, read, read'⟩, known'⟩

theorem accepts_loop {ι : Type} {pick : α → Lexeme → List Lexeme → Option β}
    {body : β → α → Read σ α} (item : ι → Described) (P : α → List ι → σ → Prop)
    (inner : List Lexeme → Prop) {items : List ι}
    (once : ∀ i ∈ items, ∀ a later ts rest s, item i ts → inner rest → P a (i :: later) s →
      ∃ t more b c s', ts = t :: more ∧ pick a t (more ++ rest) = some b ∧
        Reads (body b a) (more ++ rest) s c rest s' ∧ P c later s')
    (between : ∀ later ts rest, Each item later ts → stop rest → inner (ts ++ rest))
    (ends : ∀ a t ts, stop (t :: ts) → pick a t ts = none) (a : α) :
    Accepts (whileNext pick body a) (Each item items) stop (P a items) fun c => P c [] := by
  intro ts rest s fits ok holds
  simp only [reads_whileNext]
  induction items generalizing a ts s with
  | nil =>
    obtain rfl := fits
    refine ⟨a, s, .finish ?_, holds⟩
    rintro t more rfl
    exact ends a t more ok
  | cons i items ih =>
    obtain ⟨front, back, rfl, here, there⟩ := fits
    obtain ⟨t, more, b, c, s₁, rfl, picked, read, known⟩ := once i List.mem_cons_self a items front
      (back ++ rest) s here (between items back rest there ok) holds
    obtain ⟨d, s₂, rounds, known'⟩ := ih (fun j mem => once j (List.mem_cons_of_mem _ mem)) c back s₁
      there known
    refine ⟨d, s₂, ?_, known'⟩
    rw [List.append_assoc, List.cons_append]
    exact .round picked read rounds

end

end BlockTally.Listing
