/-! The words and marks of a listing. -/
namespace BlockTally.Listing

inductive Punct where
  | equals | comma | lparen | rparen | lbrace | rbrace | lbracket | rbracket | langle | rangle
  | star | ellipsis | bang | pipe
  deriving DecidableEq

namespace Punct

def text : Punct → String
  | .equals => "="
  | .comma => ","
  | .lparen => "("
  | .rparen => ")"
  | .lbrace => "\x7b"
  | .rbrace => "\x7d"
  | .lbracket => "["
  | .rbracket => "]"
  | .langle => "<"
  | .rangle => ">"
  | .star => "*"
  | .ellipsis => "..."
  | .bang => "!"
  | .pipe => "|"

/-- The ellipsis is made of name characters and is told apart among words. -/
def ofChar? : Char → Option Punct
  | '=' => some .equals
  | ',' => some .comma
  | '(' => some .lparen
  | ')' => some .rparen
  | '\x7b' => some .lbrace
  | '\x7d' => some .rbrace
  | '[' => some .lbracket
  | ']' => some .rbracket
  | '<' => some .langle
  | '>' => some .rangle
  | '*' => some .star
  | '!' => some .bang
  | '|' => some .pipe
  | _ => none

end Punct

/-- Payloads come without sigil, quotes or the colon of a label. -/
inductive Token where
  | globalName (name : String)
  | localName (name : String)
  | label (name : String)
  | nodeRef (node : UInt32)
  | nodeName (name : String)
  | attrRef
  | comdatRef
  | word (text : String)
  | int (value : Int64)
  | quoted (text : String)
  | punct (p : Punct)
  deriving DecidableEq

def Token.node? : Token → Option UInt32
  | .nodeRef node => some node
  | .globalName _ | .localName _ | .label _ | .nodeName _ | .attrRef | .comdatRef | .word _
  | .int _ | .quoted _ | .punct _ => none

@[simp] theorem Token.node?_eq_some {t : Token} {node : UInt32} :
    t.node? = some node ↔ t = .nodeRef node := by
  cases t <;> simp [node?]

def Token.described : Token → String
  | .globalName name => "`@" ++ name ++ "`"
  | .localName name => "`%" ++ name ++ "`"
  | .label name => "label `" ++ name ++ ":`"
  | .nodeRef node => "`!" ++ toString node.toNat ++ "`"
  | .nodeName name => "`!" ++ name ++ "`"
  | .attrRef => "attribute group"
  | .comdatRef => "comdat"
  | .word text => "`" ++ text ++ "`"
  | .int value => "`" ++ toString value.toInt ++ "`"
  | .quoted text => "\"" ++ text ++ "\""
  | .punct p => "`" ++ p.text ++ "`"

structure Lexeme where
  token : Token
  start : Nat
  stop : Nat
  deriving DecidableEq

end BlockTally.Listing
