import BlockTally.Proofs.Listing.Told

/-! The places that complaints are made at. A position stands for one byte of the text only, and that
is where lexing stopped, or where a token starts, or the end. Main statement: `parse_located`. -/
namespace BlockTally.Listing
open Text

section
variable {src : List Char} {ts : List Lexeme} {place : Option Nat} {cause : Cause} {o : Nat}

theorem Boundary.marks_iff {text : String} (boundary : Boundary text.toList o) {n : Nat} :
    (position text.toList o).Marks text n ↔ n = o := by
  obtain ⟨pre, post, whole, rfl⟩ := boundary
  exact marks_position_iff whole

/-- The position of a complaint stands for one byte of the text or for its end, and for no other. It is
where lexing stopped, if the text has no tokens, and else the start of a token or the end. -/
theorem parse_located {name text : String} {p : Position} {cause : Cause}
    (failed : parse name text = .error (.refused (.malformed p cause))) :
    ∃ o, p.Marks text o ∧ (∀ n, p.Marks text n → n = o) ∧
      match lex text.toList with
      | .error stuck => o = stuck
      | .ok ts => (∃ t ∈ ts, t.start = o) ∨ o = text.utf8ByteSize := by
  suffices found : ∃ o, Boundary text.toList o ∧ p = position text.toList o ∧
      match lex text.toList with
      | .error stuck => o = stuck
      | .ok ts => (∃ t ∈ ts, t.start = o) ∨ o = byteLength text.toList by
    obtain ⟨o, boundary, rfl, place⟩ := found
    rw [byteLength_toList] at place
    exact ⟨o, boundary.marks_iff.mpr rfl, fun n marks => boundary.marks_iff.mp marks, place⟩
  cases lexed : lex text.toList with
  | error stuck =>
    simp only [parse_told, lexed] at failed
    cases failed
    exact ⟨stuck, boundary_stuck lexed, rfl, rfl⟩
  | ok ts =>
    simp only [parse_told, lexed] at failed
    cases run : parseTokens name text.toList ts with
    | ok m =>
      rw [run] at failed
      cases failed
    | error e =>
      rw [run] at failed
      cases e with
      | outOfRange => cases failed
      | refused c =>
        cases failed
        obtain ⟨boundary, place⟩ := (parseTokens_points lexed run).spot.boundary lexed
        exact ⟨_, boundary, rfl, place⟩

end

/-- A parameter is declared twice, behind letters of two bytes each. -/
def accented : String := "; ß\ndeclare i32 @\"zähle\"(i32 %\"größe\", i32 %\"größe\")\n"

theorem parse_located_accented :
    parse "m" accented = .error (.refused (.malformed ⟨2, 43⟩ (.duplicateParameter "größe"))) ∧
      ∃ o, Position.Marks ⟨2, 43⟩ accented o ∧ (∀ n, Position.Marks ⟨2, 43⟩ accented n → n = o) ∧
        match lex accented.toList with
        | .error stuck => o = stuck
        | .ok ts => (∃ t ∈ ts, t.start = o) ∨ o = accented.utf8ByteSize := by
  have failed : parse "m" accented =
      .error (.refused (.malformed ⟨2, 43⟩ (.duplicateParameter "größe"))) := by
    have chars : accented.toList = _ := String.toList_ofList
    rw [parse_told, chars]
    decide +kernel
  exact ⟨failed, parse_located failed⟩

end BlockTally.Listing
