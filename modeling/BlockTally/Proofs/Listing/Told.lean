import BlockTally.Proofs.Listing.Pointing
import BlockTally.Proofs.Text.Lines

/-! What the user of a text is told. The place of a complaint is one that the text has, so that the
table of lines has its position. Main statement: `parse_told`. -/
namespace BlockTally.Listing
open Text

/-- The byte stands between two characters, or at an end of the text. -/
def Boundary (src : List Char) (o : Nat) : Prop := ∃ pre post, src = pre ++ post ∧ byteLength pre = o

/-- A complaint as it is told, with its position counted from character to character. -/
def Complaint.told (src : List Char) (c : Complaint) : ReadError :=
  .malformed (position src (c.place.getD (byteLength src))) c.cause

section
variable {src : List Char} {ts : List Lexeme} {place : Option Nat} {cause : Cause} {o : Nat}

private theorem boundary_end (src : List Char) : Boundary src (byteLength src) :=
  ⟨src, [], (List.append_nil src).symm, rfl⟩

private theorem boundary_start (lexed : lex src = .ok ts) {t : Lexeme} (mem : t ∈ ts) :
    Boundary src t.start := by
  obtain ⟨piece, ⟨pre, post, whole, start⟩, -, -⟩ := placed_of_lex lexed t mem
  exact ⟨pre, piece ++ post, whole, start⟩

private theorem exists_behind {c : Char} {rest pre post : List Char} {k o : Nat}
    (behind : rest.drop k = pre ++ post) : ∃ pre', c :: rest = pre' ++ post ∧
      o + byteLength (c :: rest.take k) + byteLength pre = o + byteLength pre' := by
  refine ⟨c :: rest.take k ++ pre, ?_, ?_⟩
  · rw [List.append_assoc, ← behind, List.cons_append, List.take_append_drop]
  · rw [byteLength_append, Nat.add_assoc]

/-- Lexing stops between characters. -/
theorem exists_of_lexFrom_error {o stuck : Nat} {cs : List Char}
    (failed : lexFrom o cs = .error stuck) :
    ∃ pre post, cs = pre ++ post ∧ stuck = o + byteLength pre := by
  fun_induction lexFrom o cs with
  | case1 => cases failed
  | case2 o c rest blank ih =>
    obtain ⟨pre, post, rfl, rfl⟩ := ih failed
    exact ⟨c :: pre, post, rfl, by rw [byteLength_cons, Nat.add_assoc]⟩
  | case3 o rest comment _ ih =>
    obtain ⟨pre, post, behind, rfl⟩ := ih failed
    have whole : rest.take comment.length = comment :=
      List.prefix_iff_eq_take.mp (List.takeWhile_prefix _) |>.symm
    obtain ⟨pre', same, size⟩ := exists_behind (c := ';') (o := o) behind
    exact ⟨pre', post, same, by rw [← size, whole]⟩
  | case4 o c rest =>
    cases failed
    exact ⟨[], c :: rest, rfl, rfl⟩
  | case5 o c rest _ _ token n found stop e failing ih =>
    cases failed
    obtain ⟨pre, post, behind, rfl⟩ := ih failing
    obtain ⟨pre', same, size⟩ := exists_behind (c := c) (o := o) behind
    exact ⟨pre', post, same, size⟩
  | case6 => cases failed

theorem boundary_stuck (failed : lex src = .error o) : Boundary src o := by
  obtain ⟨pre, post, same, rfl⟩ := exists_of_lexFrom_error failed
  exact ⟨pre, post, same, (Nat.zero_add _).symm⟩

/-- Whatever a complaint is about, it is made at a token or at the end. -/
theorem Pointed.spot (pointed : Pointed ts ⟨place, cause⟩) : Spot ts place := by
  cases pointed with
  | plain spot unnamed => exact spot
  | word mem named early => exact .of_mem mem
  | behind behind named late =>
    obtain ⟨before, t, whole, -⟩ := behind
    apply Spot.head
    exact ⟨before ++ [t], by rw [whole, List.append_assoc, List.singleton_append]⟩

theorem Spot.boundary (lexed : lex src = .ok ts) (spot : Spot ts place) :
    Boundary src (place.getD (byteLength src)) ∧
      ((∃ t ∈ ts, t.start = place.getD (byteLength src)) ∨
        place.getD (byteLength src) = byteLength src) := by
  cases place with
  | none => exact ⟨boundary_end src, .inr rfl⟩
  | some start =>
    obtain ⟨t, mem, rfl⟩ := spot start rfl
    exact ⟨boundary_start lexed mem, .inl ⟨t, mem, rfl⟩⟩

/-- The table of lines has the position of a place between characters. -/
theorem complain_of_boundary {c : Complaint} (boundary : Boundary src (c.place.getD (byteLength src))) :
    complain src (.refused c) = .refused (c.told src) := by
  obtain ⟨pre, post, rfl, size⟩ := boundary
  rw [complain, Complaint.told, ← size, positionIn?_behind]

private theorem complain_of_parseTokens {name : String} {e : Failure Complaint}
    (lexed : lex src = .ok ts) (failed : parseTokens name src ts = .error e) :
    complain src e = e.map (Complaint.told src) := by
  cases e with
  | outOfRange => rfl
  | refused c =>
    exact complain_of_boundary ((parseTokens_points lexed failed).spot.boundary lexed).1

/-- What reading a text gives, told without a registry and without a table of lines. -/
theorem parse_told (name text : String) : parse name text = (match lex text.toList with
    | .error offset => .error (.refused (Complaint.told text.toList ⟨some offset, .unrecognized⟩))
    | .ok ts => (parseTokens name text.toList ts).mapError
        (Failure.map (Complaint.told text.toList))) := by
  rw [parse_eq]
  cases lexed : lex text.toList with
  | error offset =>
    exact congrArg Except.error (complain_of_boundary (boundary_stuck lexed))
  | ok ts =>
    change (parseTokens name text.toList ts).mapError _ = (parseTokens name text.toList ts).mapError _
    cases run : parseTokens name text.toList ts with
    | ok m => rfl
    | error e => exact congrArg Except.error (complain_of_parseTokens lexed run)

end

end BlockTally.Listing
