import BlockTally.Failure
import BlockTally.Listing.Complaint

/-! Reading tokens from left to right. What a step leaves is a suffix of what it was given, and the
type says so: no step can go back, and a loop that takes a token each time ends. -/
namespace BlockTally.Listing

abbrev Rest (ts : List Lexeme) := { rest : List Lexeme // rest <:+ ts }

abbrev ReadResult (σ α : Type) (ts : List Lexeme) :=
  Except (Failure Complaint) (α × Rest ts × σ)

def Read (σ α : Type) := (ts : List Lexeme) → σ → ReadResult σ α ts

namespace Read

instance : Monad (Read σ) where
  pure a := fun ts s => .ok (a, ⟨ts, List.suffix_refl ts⟩, s)
  bind m f := fun ts s => match m ts s with
    | .error e => .error e
    | .ok (a, ⟨rest, h⟩, s) => match f a rest s with
      | .error e => .error e
      | .ok (b, ⟨rest, h'⟩, s) => .ok (b, ⟨rest, h'.trans h⟩, s)

def state : Read σ σ := fun ts s => .ok (s, ⟨ts, List.suffix_refl ts⟩, s)

def update (f : σ → σ) : Read σ Unit := fun ts s => .ok ((), ⟨ts, List.suffix_refl ts⟩, f s)

def outOfRange : Read σ α := fun _ _ => .error .outOfRange

def present : Option α → Read σ α
  | some a => return a
  | none => outOfRange

def refuseAt (start : Option Nat) (cause : Cause) : Read σ α := fun _ _ =>
  .error (.refused ⟨start, cause⟩)

def ahead : Read σ (List Lexeme) := fun ts s => .ok (ts, ⟨ts, List.suffix_refl ts⟩, s)

def peek : Read σ (Option Lexeme) := return (← ahead).head?

def peekToken : Read σ (Option Token) := return (← peek).map (·.token)

def place : Read σ (Option Nat) := return (← peek).map (·.start)

def refuse (cause : Cause) : Read σ α := do refuseAt (← place) cause

def unexpected (what : Wanted) : Read σ α := do refuse (.expected what (← peekToken))

def advance (f : (ts : List Lexeme) → Rest ts) : Read σ Unit := fun ts s => .ok ((), f ts, s)

def skip : Read σ Unit := advance fun ts => ⟨ts.tail, List.tail_suffix ts⟩

def skipWhile (p : Lexeme → Bool) : Read σ Unit :=
  advance fun ts => ⟨ts.dropWhile p, List.dropWhile_suffix p⟩

def accept (f : Token → Option α) : Read σ (Option α) := do
  match (← peekToken).bind f with
  | some a => skip; return some a
  | none => return none

def demand (what : Wanted) (f : Token → Option α) : Read σ α := do
  match ← accept f with
  | some a => return a
  | none => unexpected what

def eat (t : Token) : Read σ Bool :=
  return (← accept fun found => if found = t then some () else none).isSome

def expect (t : Token) : Read σ Unit :=
  demand (.token t) fun found => if found = t then some () else none

def word (what : Wanted) : Read σ String :=
  demand what fun | .word text => some text | _ => none

def traced (m : Read σ α) : Read σ (α × List Lexeme) := fun ts s =>
  match m ts s with
  | .error e => .error e
  | .ok (a, rest, s) => .ok ((a, ts.take (ts.length - rest.val.length)), rest, s)

def taken (m : Read σ Unit) : Read σ (List Lexeme) := return (← traced m).2

/-- As long as `pick` accepts the next token, seeing also those behind it, takes that token and
runs `body`. -/
def whileNext (pick : α → Lexeme → List Lexeme → Option β) (body : β → α → Read σ α) (a : α) :
    Read σ α := go a
where
  go (a : α) : (ts : List Lexeme) → σ → ReadResult σ α ts
    | [], s => .ok (a, ⟨[], List.suffix_refl []⟩, s)
    | t :: ts, s => match pick a t ts with
      | none => .ok (a, ⟨t :: ts, List.suffix_refl _⟩, s)
      | some b => match body b a ts s with
        | .error e => .error e
        | .ok (a, ⟨rest, h⟩, s) => match go a rest s with
          | .error e => .error e
          | .ok (a, ⟨rest, h'⟩, s) => .ok (a, ⟨rest, h'.trans (h.trans (List.suffix_cons t ts))⟩, s)
  termination_by ts => ts.length
  decreasing_by have := h.length_le; simp only [List.length_cons]; omega

/-- What follows the closing mark that ends `depth` open groups; other marks are not looked at. -/
def afterGroup (opening closing : Punct) : Nat → (ts : List Lexeme) → Option (Rest ts)
  | 0, ts => some ⟨ts, List.suffix_refl ts⟩
  | _ + 1, [] => none
  | depth + 1, t :: ts =>
    let deeper := if t.token = .punct opening then depth + 2
      else if t.token = .punct closing then depth else depth + 1
    (afterGroup opening closing deeper ts).map fun ⟨rest, h⟩ =>
      ⟨rest, h.trans (List.suffix_cons t ts)⟩

def closeGroup (opening closing : Punct) (start : Option Nat) (cause : Cause) : Read σ Unit :=
  fun ts s => match afterGroup opening closing 1 ts with
    | some rest => .ok ((), rest, s)
    | none => .error (.refused ⟨start, cause⟩)

def group (opening closing : Punct) : Read σ Unit := do
  let start ← place
  expect (.punct opening)
  closeGroup opening closing start .unclosedGroup

def optionalGroup : Read σ Unit := do
  if (← peekToken) = some (.punct .lparen) then group .lparen .rparen

end Read

end BlockTally.Listing
