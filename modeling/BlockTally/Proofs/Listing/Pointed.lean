import BlockTally.Proofs.Listing.Told

/-! Complaints about one word. Main statement: `parse_pointed`. -/
namespace BlockTally.Listing
open Read Text

section
variable {src : List Char} {ts : List Lexeme}

/-- Pieces at the same position stand at the same place. -/
theorem At.eq_of_position {a b : List Char} {o o' : Nat} (here : At src o a) (there : At src o' b)
    (same : position src o = position src o') : o = o' := by
  obtain ⟨pre, post, rfl, rfl⟩ := here
  obtain ⟨pre', post', split, rfl⟩ := there
  rw [eq_of_position_eq split same]

private theorem start_injective (lexed : lex src = .ok ts) {t u : Lexeme} (here : t ∈ ts)
    (there : u ∈ ts) (same : t.start = u.start) : t = u := by
  have whole := lexFrom_eq_ok.mp lexed
  have starts : (ts.map Lexeme.start).Nodup :=
    List.pairwise_map.mpr <| whole.ordered.imp_of_mem fun here _ order => by
      have := (whole.start_le _ here).2.1
      omega
  exact List.inj_on_of_nodup_map starts here there same

/-- The position of one token, or of the end, is that of no other token. -/
theorem position_start_iff (lexed : lex src = .ok ts) {shown : Option Lexeme}
    (among : ∀ t ∈ shown, t ∈ ts) {u : Lexeme} (mem : u ∈ ts) :
    position src u.start = position src ((shown.map Lexeme.start).getD (byteLength src)) ↔
      u ∈ shown := by
  obtain ⟨piece, place, -, some⟩ := placed_of_lex lexed u mem
  cases shown with
  | none =>
    refine iff_of_false (fun same => ?_) nofun
    have finish : At src (byteLength src) [] := ⟨src, [], by simp, rfl⟩
    have stop := ((lexFrom_eq_ok.mp lexed).start_le u mem).2
    have start := place.eq_of_position finish same
    omega
  | some t =>
    obtain ⟨piece', place', -, -⟩ := placed_of_lex lexed t (among t rfl)
    refine ⟨fun same => ?_, ?_⟩
    · rw [start_injective lexed mem (among t rfl) (place.eq_of_position place' same)]
      rfl
    · rintro ⟨⟩
      rfl

/-- Where a complaint about the first of these tokens is made. -/
def Cause.shownAt (cause : Cause) (t : Lexeme) (after : List Lexeme) : Option Lexeme :=
  if cause.isLate then after.head? else some t

/-- A complaint with a place. -/
theorem Pointed.shown {place : Option Nat} {cause : Cause} {token : Token}
    (pointed : Pointed ts ⟨place, cause⟩) (named : cause.named? = some token) :
    ∃ before t after, ts = before ++ t :: after ∧ t.token = token ∧
      place = (cause.shownAt t after).map Lexeme.start := by
  cases pointed with
  | plain _ unnamed =>
    rw [unnamed] at named
    cases named
  | @word t _ mem same early =>
    obtain ⟨before, after, whole⟩ := List.append_of_mem mem
    refine ⟨before, t, after, whole, Option.some.inj (same.symm.trans named), ?_⟩
    rw [Cause.shownAt, early]
    rfl
  | @behind after _ _ behind same late =>
    obtain ⟨before, t, whole, rfl⟩ := behind
    refine ⟨before, t, after, whole, Option.some.inj (same.symm.trans named), ?_⟩
    rw [Cause.shownAt, late]
    rfl

/-- A complaint that names a word is about a token that is this word, and its position is that of the
token; of a complaint about an opcode or a comparison it is that of the token behind, or of the end of
the text where none is left. No other token has this position. -/
theorem parse_pointed {name text : String} {p : Position} {cause : Cause} {token : Token}
    (failed : parse name text = .error (.refused (.malformed p cause)))
    (named : cause.named? = some token) :
    ∃ before t after, lex text.toList = .ok (before ++ t :: after) ∧ t.token = token ∧
      (∃ lead trail, cause.message = lead ++ token.described ++ trail) ∧
      p = position text.toList (((cause.shownAt t after).map Lexeme.start).getD
        (byteLength text.toList)) ∧
      ∀ u ∈ before ++ t :: after, position text.toList u.start = p ↔ u ∈ cause.shownAt t after := by
  cases lexed : lex text.toList with
  | error offset =>
    simp only [parse_told, lexed] at failed
    cases failed
    cases named
  | ok ts =>
    simp only [parse_told, lexed] at failed
    cases run : parseTokens name text.toList ts with
    | ok m =>
      rw [run] at failed
      cases failed
    | error e =>
      rw [run] at failed
      cases e with
      | outOfRange => cases failed
      | refused c =>
        cases failed
        obtain ⟨before, t, after, rfl, same, place⟩ := (parseTokens_points lexed run).shown named
        rw [place]
        refine ⟨before, t, after, rfl, same, Cause.message_named named, rfl, fun u mem => ?_⟩
        refine position_start_iff lexed (fun v shown => ?_) mem
        unfold Cause.shownAt at shown
        split at shown
        · exact List.mem_append_right _ (List.mem_cons_of_mem _ (List.mem_of_mem_head? shown))
        · obtain rfl := Option.some.inj shown
          exact List.mem_append_right _ List.mem_cons_self

end

def unreturned : String :=
  "define i32 @f() \x7b
  ret i32 %missing
\x7d
"

private theorem parse_unreturned : parse "m" unreturned =
    .error (.refused (.malformed ⟨2, 11⟩ (.undefinedValue "missing"))) := by
  have chars : unreturned.toList = _ := String.toList_ofList
  rw [parse_told, chars]
  decide +kernel

theorem parse_pointed_unreturned :
    parse "m" unreturned = .error (.refused (.malformed ⟨2, 11⟩ (.undefinedValue "missing"))) ∧
      ∃ before t after, lex unreturned.toList = .ok (before ++ t :: after) ∧
        t.token = .localName "missing" ∧
        ∀ u ∈ before ++ t :: after, position unreturned.toList u.start = ⟨2, 11⟩ ↔ u = t := by
  have failed := parse_unreturned
  obtain ⟨before, t, after, lexed, same, -, -, only⟩ := parse_pointed failed rfl
  refine ⟨failed, before, t, after, lexed, same, fun u mem => (only u mem).trans ?_⟩
  rw [eq_comm (a := u)]
  exact Option.some_inj

/-- An opcode that is not supported, with another word behind it. -/
def fenced : String :=
  "define void @f() \x7b
  fence seq_cst
  ret void
\x7d
"

/-- The complaint names the opcode, and the only token at its position is the word behind. -/
theorem fenced_elsewhere :
    parse "m" fenced = .error (.refused (.malformed ⟨2, 9⟩ (.unsupportedInstruction "fence"))) ∧
      (lex fenced.toList).map (fun ts =>
        (ts.filter fun t => position fenced.toList t.start = ⟨2, 9⟩).map Lexeme.token) =
          .ok [.word "seq_cst"] := by
  have chars : fenced.toList = _ := String.toList_ofList
  rw [parse_told, chars]
  exact ⟨by decide +kernel, by decide +kernel⟩

end BlockTally.Listing
