import MatchChain.Number.Double
import MatchChain.Source.Span

/-!
# Tokens

The words of a source text. Keywords and punctuation are enumerations with one spelling each; a
template literal is a single token that carries its texts and the code of its holes, which is read
later.
-/

set_option autoImplicit false

namespace MatchChain

inductive Keyword where
  | «let»
  | «const»
  | «var»
  | «function»
  | «return»
  | «if»
  | «else»
  | «true»
  | «false»
  | «null»
  | «this»
  | «typeof»
  | «void»
  | «delete»
  | «new»
  | «import»
  | «await»
  | «while»
  | «break»
  | «continue»
  | «throw»
  | «try»
  | «catch»
  | «finally»
  | «in»
  | «instanceof»
deriving DecidableEq, Inhabited

namespace Keyword

def all : List Keyword :=
  [.«let», .«const», .«var», .«function», .«return», .«if», .«else», .«true», .«false», .«null»,
    .«this», .«typeof», .«void», .«delete», .«new», .«import», .«await», .«while», .«break»,
    .«continue», .«throw», .«try», .«catch», .«finally», .«in», .«instanceof»]

def text : Keyword → String
  | .«let» => "let"
  | .«const» => "const"
  | .«var» => "var"
  | .«function» => "function"
  | .«return» => "return"
  | .«if» => "if"
  | .«else» => "else"
  | .«true» => "true"
  | .«false» => "false"
  | .«null» => "null"
  | .«this» => "this"
  | .«typeof» => "typeof"
  | .«void» => "void"
  | .«delete» => "delete"
  | .«new» => "new"
  | .«import» => "import"
  | .«await» => "await"
  | .«while» => "while"
  | .«break» => "break"
  | .«continue» => "continue"
  | .«throw» => "throw"
  | .«try» => "try"
  | .«catch» => "catch"
  | .«finally» => "finally"
  | .«in» => "in"
  | .«instanceof» => "instanceof"

/-- The keyword with this spelling. -/
def ofText? (s : String) : Option Keyword := all.find? (·.text == s)

end Keyword

/-- Punctuation and operators. -/
inductive Punct where
  | lparen
  | rparen
  | lbrace
  | rbrace
  | lbracket
  | rbracket
  | semicolon
  | comma
  | dot
  | ellipsis
  | questionDot
  | question
  | colon
  | arrow
  | eq
  | eqEq
  | eqEqEq
  | notEq
  | notEqEq
  | lt
  | ltEq
  | gt
  | gtEq
  | plus
  | minus
  | star
  | starStar
  | slash
  | percent
  | bang
  | tilde
  | amp
  | ampAmp
  | pipe
  | pipePipe
  | caret
  | shl
  | shr
  | ushr
  | questionQuestion
  | plusEq
  | minusEq
  | starEq
  | slashEq
  | percentEq
  | ampAmpEq
  | pipePipeEq
  | questionQuestionEq
  | plusPlus
  | minusMinus
deriving DecidableEq, Inhabited

namespace Punct

/-- All of them, longer spellings first, so that the first one that fits is the longest. -/
def all : List Punct :=
  [.ellipsis, .eqEqEq, .notEqEq, .ushr, .ampAmpEq, .pipePipeEq, .questionQuestionEq, .questionDot,
    .arrow, .eqEq, .notEq, .ltEq, .gtEq, .starStar, .ampAmp, .pipePipe, .shl, .shr,
    .questionQuestion, .plusEq, .minusEq, .starEq, .slashEq, .percentEq, .plusPlus, .minusMinus,
    .lparen, .rparen, .lbrace, .rbrace, .lbracket, .rbracket, .semicolon, .comma, .dot, .question,
    .colon, .eq, .lt, .gt, .plus, .minus, .star, .slash, .percent, .bang, .tilde, .amp, .pipe,
    .caret]

def text : Punct → String
  | .lparen => "("
  | .rparen => ")"
  | .lbrace => "\x7b"
  | .rbrace => "\x7d"
  | .lbracket => "["
  | .rbracket => "]"
  | .semicolon => ";"
  | .comma => ","
  | .dot => "."
  | .ellipsis => "..."
  | .questionDot => "?."
  | .question => "?"
  | .colon => ":"
  | .arrow => "=>"
  | .eq => "="
  | .eqEq => "=="
  | .eqEqEq => "==="
  | .notEq => "!="
  | .notEqEq => "!=="
  | .lt => "<"
  | .ltEq => "<="
  | .gt => ">"
  | .gtEq => ">="
  | .plus => "+"
  | .minus => "-"
  | .star => "*"
  | .starStar => "**"
  | .slash => "/"
  | .percent => "%"
  | .bang => "!"
  | .tilde => "~"
  | .amp => "&"
  | .ampAmp => "&&"
  | .pipe => "|"
  | .pipePipe => "||"
  | .caret => "^"
  | .shl => "<<"
  | .shr => ">>"
  | .ushr => ">>>"
  | .questionQuestion => "??"
  | .plusEq => "+="
  | .minusEq => "-="
  | .starEq => "*="
  | .slashEq => "/="
  | .percentEq => "%="
  | .ampAmpEq => "&&="
  | .pipePipeEq => "||="
  | .questionQuestionEq => "??="
  | .plusPlus => "++"
  | .minusMinus => "--"

/-- The longest punctuation that a text starts with. -/
def ofStart? (cs : List Char) : Option Punct := all.find? (·.text.toList.isPrefixOf cs)

end Punct

/-- A stretch of text in a template literal, its escapes resolved. -/
structure TemplateText where
  text : String
  span : Span
deriving DecidableEq, Inhabited

/-- The code of a hole in a template literal, not yet read. -/
structure TemplateHole where
  code : List Char
  span : Span
deriving DecidableEq, Inhabited

/-- A template literal: its texts and, between them, its holes. -/
structure TemplateParts where
  texts : List TemplateText
  holes : List TemplateHole
deriving DecidableEq, Inhabited

inductive TokenKind where
  | ident (name : String)
  | str (text : String)
  | num (value : Double)
  | bigint (digits : String)
  | template (parts : TemplateParts)
  | keyword (word : Keyword)
  | punct (sign : Punct)
  | eof
deriving DecidableEq, Inhabited

namespace TokenKind

/-- The name of a kind in messages. -/
def displayName : TokenKind → String
  | .ident _ => "identifier"
  | .str _ => "string"
  | .num _ => "number"
  | .bigint _ => "bigint"
  | .template _ => "template literal"
  | .keyword word => word.text
  | .punct sign => sign.text
  | .eof => "end of file"

def isOpening : TokenKind → Bool
  | .punct .lparen | .punct .lbracket | .punct .lbrace => true
  | _ => false

def isClosing : TokenKind → Bool
  | .punct .rparen | .punct .rbracket | .punct .rbrace => true
  | _ => false

end TokenKind

structure Token where
  kind : TokenKind
  span : Span
  /-- Whether a line break stands between this token and the one before it. -/
  newlineBefore : Bool
deriving DecidableEq, Inhabited

end MatchChain
