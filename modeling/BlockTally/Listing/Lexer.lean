import BlockTally.Listing.Token
import BlockTally.Text.Decimal
import BlockTally.Text.Name
import BlockTally.Text.Offset

/-! From text to tokens. The longest token wins; a run of name characters is never cut, so a run
that is no token as a whole is an error at its start. -/
namespace BlockTally.Listing
open Text

def isGap (c : Char) : Bool := c == ' ' || c == '\t' || c == '\r' || c == '\n' || c == '\x0c'

/-- The text up to a closing quote, if there is one. Nothing is escaped in quotes. -/
def quotedText? (cs : List Char) : Option (List Char) :=
  let text := cs.takeWhile (· != '"')
  if text.length < cs.length then some text else none

def nameAfter? : List Char → Option (String × Nat)
  | '"' :: cs => (quotedText? cs).map fun text => (.ofList text, text.length + 2)
  | cs =>
    let name := cs.takeWhile isNameChar
    if name.isEmpty then none else some (.ofList name, name.length)

def nodeAfter? (cs : List Char) : Option (Token × Nat) :=
  let digits := cs.takeWhile Char.isDigit
  let name := cs.takeWhile isNameChar
  if !digits.isEmpty then (word32? digits).map fun node => (.nodeRef node, digits.length)
  else if !name.isEmpty then some (.nodeName (.ofList name), name.length)
  else some (.punct .bang, 0)

def isWord : List Char → Bool
  | [] => false
  | c :: cs => (c.isAlpha || c == '_') && cs.all fun d => d.isAlphanum || d == '_' || d == '.'

/-- The token that a whole run of name characters is, where no colon follows. -/
def wordToken? (run : List Char) : Option Token :=
  if isWord run then some (.word (.ofList run))
  else if run = ['.', '.', '.'] then some (.punct .ellipsis)
  else match run with
    | '$' :: _ :: _ => some .comdatRef
    | _ => (int64? run).map .int

def tokenAt (c : Char) (rest : List Char) : Option (Token × Nat) :=
  if c = '@' then (nameAfter? rest).map fun (name, n) => (.globalName name, n)
  else if c = '%' then (nameAfter? rest).map fun (name, n) => (.localName name, n)
  else if c = '!' then nodeAfter? rest
  else if c = '#' then
    let digits := rest.takeWhile Char.isDigit
    if digits.isEmpty then none else some (.attrRef, digits.length)
  else if c = '"' then
    (quotedText? rest).map fun text =>
      if rest[text.length + 1]? = some ':' then (.label (.ofList text), text.length + 2)
      else (.quoted (.ofList text), text.length + 1)
  else if isNameChar c then
    let run := rest.takeWhile isNameChar
    if rest[run.length]? = some ':' then some (.label (.ofList (c :: run)), run.length + 1)
    else (wordToken? (c :: run)).map fun token => (token, run.length)
  else (Punct.ofChar? c).map fun p => (.punct p, 0)

def lexFrom (offset : Nat) (cs : List Char) : Except Nat (List Lexeme) :=
  match cs with
  | [] => .ok []
  | c :: rest =>
    if isGap c then lexFrom (offset + c.utf8Size) rest
    else if c = ';' then
      let comment := rest.takeWhile (· != '\n')
      lexFrom (offset + byteLength (c :: comment)) (rest.drop comment.length)
    else match tokenAt c rest with
      | none => .error offset
      | some (token, n) =>
        let stop := offset + byteLength (c :: rest.take n)
        match lexFrom stop (rest.drop n) with
        | .error e => .error e
        | .ok lexemes => .ok (⟨token, offset, stop⟩ :: lexemes)
termination_by cs.length
decreasing_by all_goals simp only [List.length_cons, List.length_drop]; omega

def lex (text : List Char) : Except Nat (List Lexeme) := lexFrom 0 text

end BlockTally.Listing
