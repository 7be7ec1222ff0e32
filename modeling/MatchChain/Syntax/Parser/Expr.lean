import MatchChain.Syntax.Parser.Binding

/-!
# Reading expressions

Binary operators are read by precedence climbing. An arrow function is recognised before it is read,
by looking for the arrow after a name or after the parenthesis that closes the parameter list, so
parameters are read as bindings from the start.
-/

set_option autoImplicit false

namespace MatchChain.Parser

/-! ## Operator tokens -/

def binaryOp? : TokenKind → Option BinaryOp
  | .punct .plus => some .add
  | .punct .minus => some .sub
  | .punct .star => some .mul
  | .punct .slash => some .div
  | .punct .percent => some .mod
  | .punct .starStar => some .exp
  | .punct .eqEq => some .looseEq
  | .punct .notEq => some .looseNotEq
  | .punct .eqEqEq => some .strictEq
  | .punct .notEqEq => some .strictNotEq
  | .punct .lt => some .lt
  | .punct .ltEq => some .ltEq
  | .punct .gt => some .gt
  | .punct .gtEq => some .gtEq
  | .punct .amp => some .bitAnd
  | .punct .pipe => some .bitOr
  | .punct .caret => some .bitXor
  | .punct .shl => some .shl
  | .punct .shr => some .shr
  | .punct .ushr => some .ushr
  | .keyword .«in» => some .isIn
  | .keyword .«instanceof» => some .instanceOf
  | .punct .ampAmp => some .and
  | .punct .pipePipe => some .or
  | .punct .questionQuestion => some .nullish
  | _ => none

def assignOp? : TokenKind → Option AssignOp
  | .punct .eq => some .assign
  | .punct .plusEq => some .add
  | .punct .minusEq => some .sub
  | .punct .starEq => some .mul
  | .punct .slashEq => some .div
  | .punct .percentEq => some .mod
  | .punct .ampAmpEq => some .and
  | .punct .pipePipeEq => some .or
  | .punct .questionQuestionEq => some .nullish
  | _ => none

def unaryOp? : TokenKind → Option UnaryOp
  | .punct .bang => some .not
  | .punct .minus => some .neg
  | .punct .plus => some .plus
  | .punct .tilde => some .bitNot
  | .keyword .«typeof» => some .typeOf
  | .keyword .«void» => some .void
  | .keyword .«delete» => some .delete
  | .keyword .«await» => some .await
  | _ => none

/-! ## Functions -/

/-- A statement of a block. Another may always follow. -/
def blockItem (self : Grammar) : Parser (Stmt × Bool) := do
  let token ← current
  if token.kind == .eof then throw (.expectedToken (.punct .rbrace) .eof token.span)
  return (← self .stmt, true)

/-- Statements in braces. -/
def block (self : Grammar) : Parser (List Stmt) := do
  let _ ← expect (.punct .lbrace)
  let body ← collect (·.check (.punct .rbrace)) (blockItem self)
  let _ ← expect (.punct .rbrace)
  return body

/-- The name of a function. A declaration needs one. -/
def functionName (kind : FuncKind) : Parser (Option String) := do
  let token ← current
  match token.kind with
  | .ident name =>
    modify Cursor.advance
    return some name
  | _ => if kind == .declaration then throw (.namelessFunction token.span) else return none

/-- A function from its parameter list on. -/
def functionRest (self : Grammar) (kind : FuncKind) (start : Span) (name : Option String)
    (isAsync isGenerator : Bool) : Parser Func := do
  let params ← params self
  let body ← block self
  return { span := ← spanFrom start, kind, name, params, body := .block body, isAsync, isGenerator }

/-- A function from its keyword on. -/
def function (self : Grammar) (kind : FuncKind) (start : Span) (isAsync : Bool) : Parser Func := do
  let _ ← expect (.keyword .«function»)
  let isGenerator ← eat (.punct .star)
  let name ← functionName kind
  functionRest self kind start name isAsync isGenerator

/-- A method in an object literal, from its parameter list on. -/
def method (self : Grammar) (start : Span) : Parser Func :=
  functionRest self .expression start none false false

/-- If an arrow function starts here, whether it is an asynchronous one. -/
def arrowAhead (c : Cursor) : Option Bool := do
  let second := c.peek 1
  let opensList := match second.kind with
    | .ident _ | .punct .lparen => true
    | _ => false
  let isAsync := c.kind == .ident "async" && !second.newlineBefore && opensList
  let head := if isAsync then c.pos + 1 else c.pos
  let arrowAt ← match (c.tokenAt head).kind with
    | .ident _ => some (head + 1)
    | .punct .lparen => (c.matchingClose head).map (· + 1)
    | _ => none
  if (c.tokenAt arrowAt).kind == .punct .arrow then some isAsync else none

/-- The parameters of an arrow function, or the one that stands without parentheses. -/
def arrowParams (self : Grammar) : Parser (List Param) := do
  let token ← current
  match token.kind with
  | .ident name =>
    modify Cursor.advance
    return [{ span := token.span, target := .ident token.span name, default := none, rest := false }]
  | _ => params self

def arrowBody (self : Grammar) : Parser FuncBody := do
  if ← check (.punct .lbrace) then return .block (← block self) else return .expr (← self .expr)

/-- An arrow function from its parameters on. -/
def arrowRest (self : Grammar) (start : Span) (isAsync : Bool) : Parser Expr := do
  let params ← arrowParams self
  let _ ← expect (.punct .arrow)
  let body ← arrowBody self
  let span ← spanFrom start
  return .func span
    { span, kind := .arrow, name := none, params, body, isAsync, isGenerator := false }

def arrow (self : Grammar) (isAsync : Bool) : Parser Expr := do
  let start ← here
  if isAsync then modify Cursor.advance
  arrowRest self start isAsync

/-- Whether a function expression marked as asynchronous starts here. -/
def asyncFunctionAhead (c : Cursor) : Bool :=
  c.kind == .ident "async" && (c.peek 1).kind == .keyword .«function» && !(c.peek 1).newlineBefore

/-! ## Literals -/

/-- An argument or array element, which may be spread. -/
def element (self : Grammar) : Parser Expr := do
  let start ← here
  if ← eat (.punct .ellipsis) then
    let operand ← self .expr
    return .spread (← spanFrom start) operand
  self .expr

/-- The expression in a hole of a template literal. -/
def templateHole (self : Grammar) (hole : TemplateHole) : Parser Expr := do
  match Token.lexAt hole.span.start hole.code with
  | .error cause => throw (.lexical cause)
  | .ok tokens =>
    let outer ← get
    set ({ tokens } : Cursor)
    let value ← self .expr
    let _ ← expect .eof
    set outer
    return value

/-- An element of an array literal, which may not be missing. -/
def arrayItem (self : Grammar) : Parser Expr := do
  let token ← current
  if token.kind == .punct .comma then unsupported "array holes" token.span
  element self

def array (self : Grammar) : Parser Expr := do
  let start ← expect (.punct .lbracket)
  let items ← commaList (.punct .rbracket) (arrayItem self)
  return .array (← spanFrom start) items

/-- A property of an object literal: a spread, a value, a method or a name standing alone. -/
def property (self : Grammar) : Parser Property := do
  let start ← here
  if ← eat (.punct .ellipsis) then
    let value ← self .expr
    return .spread (← spanFrom start) value
  let (key, alone) ← propKey self
  match ← kind with
  | .punct .colon =>
    modify Cursor.advance
    let value ← self .expr
    return .init (← spanFrom start) key value false
  | .punct .lparen =>
    let fn ← method self start
    let span ← spanFrom start
    return .init span key (.func span fn) false
  | _ =>
    match alone with
    | some name => return .init (← spanFrom start) key (.ident start name) true
    | none => failExpected "`:`"

def object (self : Grammar) : Parser Expr := do
  let start ← expect (.punct .lbrace)
  let props ← commaList (.punct .rbrace) (property self)
  return .object (← spanFrom start) props

/-- An expression that no operator is part of. -/
def primary (self : Grammar) : Parser Expr := do
  let token ← current
  let span := token.span
  match token.kind with
  | .ident name =>
    let isFunction := asyncFunctionAhead (← get)
    modify Cursor.advance
    if isFunction then
      let fn ← function self .expression span true
      return .func (← spanFrom span) fn
    return .ident span name
  | .str text => modify Cursor.advance; return .str span text
  | .num value => modify Cursor.advance; return .num span value
  | .bigint digits => modify Cursor.advance; return .bigint span digits
  | .keyword .«true» => modify Cursor.advance; return .bool span true
  | .keyword .«false» => modify Cursor.advance; return .bool span false
  | .keyword .«null» => modify Cursor.advance; return .null span
  | .keyword .«this» => modify Cursor.advance; return .thisRef span
  | .template parts =>
    modify Cursor.advance
    return .template span parts.texts (← parts.holes.mapM (templateHole self))
  | .punct .lparen =>
    modify Cursor.advance
    let inner ← self .expr
    let _ ← expect (.punct .rparen)
    return inner
  | .punct .lbracket => array self
  | .punct .lbrace => object self
  | .keyword .«function» =>
    let fn ← function self .expression span false
    return .func (← spanFrom span) fn
  | .keyword .«import» => unsupported "dynamic import" span
  | found => throw (.expected "expression" found span)

/-! ## Links: members, indices and calls -/

def args (self : Grammar) : Parser (List Expr) := do
  let _ ← expect (.punct .lparen)
  commaList (.punct .rparen) (element self)

/-- An index in brackets, applied to `object`. -/
def index (self : Grammar) (start : Span) (object : Expr) (optional : Bool) : Parser Expr := do
  let _ ← expect (.punct .lbracket)
  let key ← self .expr
  let _ ← expect (.punct .rbracket)
  return .index (← spanFrom start) object key optional

/-- A property name, applied to `object`. -/
def member (start : Span) (object : Expr) (optional : Bool) : Parser Expr := do
  let property ← propertyName
  return .member (← spanFrom start) object property optional

/-- An argument list, applied to `callee`. -/
def call (self : Grammar) (start : Span) (callee : Expr) (optional : Bool) : Parser Expr := do
  let args ← args self
  return .call (← spanFrom start) callee args optional

/-- One more link after `e`, if there is one. -/
def link (self : Grammar) (start : Span) (e : Expr) : Parser (Option Expr) := do
  let token ← current
  match token.kind with
  | .punct .dot =>
    modify Cursor.advance
    return some (← member start e false)
  | .punct .questionDot =>
    modify Cursor.advance
    match ← kind with
    | .punct .lparen => return some (← call self start e true)
    | .punct .lbracket => return some (← index self start e true)
    | _ => return some (← member start e true)
  | .punct .lbracket => return some (← index self start e false)
  | .punct .lparen => return some (← call self start e false)
  | .template _ => unsupported "tagged templates" token.span
  | .punct .plusPlus | .punct .minusMinus =>
    if token.newlineBefore then return none else unsupported "update expressions" token.span
  | _ => return none

/-- One more link of the callee of a construction, which holds no call. -/
def constructLink (self : Grammar) (start : Span) (e : Expr) : Parser (Option Expr) := do
  match ← kind with
  | .punct .dot =>
    modify Cursor.advance
    return some (← member start e false)
  | .punct .lbracket => return some (← index self start e false)
  | _ => return none

def constructOrPrimary (self : Grammar) : Parser Expr := do
  if ← check (.keyword .«new») then self .construct else primary self

/-- The argument list of a construction, which may be missing. -/
def constructArgs (self : Grammar) : Parser (List Expr) := do
  if ← check (.punct .lparen) then args self else return []

/-- An object construction. -/
def construct (self : Grammar) : Parser Expr := do
  let start ← expect (.keyword .«new»)
  let calleeStart ← here
  let callee ← chain (constructLink self calleeStart) (← constructOrPrimary self)
  let args ← constructArgs self
  return .construct (← spanFrom start) callee args

/-- A primary expression or construction with its links. -/
def postfixed (self : Grammar) : Parser Expr := do
  let start ← here
  chain (link self start) (← constructOrPrimary self)

/-! ## Operators -/

def unary (self : Grammar) : Parser Expr := do
  let token ← current
  match token.kind with
  | .punct .plusPlus | .punct .minusMinus => unsupported "update expressions" token.span
  | found =>
    match unaryOp? found with
    | none => postfixed self
    | some op =>
      modify Cursor.advance
      let operand ← self .unary
      return .unary (← spanFrom token.span) op operand

/-- One more operator and right operand after `left`, if it binds tightly enough. -/
def binaryLink (self : Grammar) (tightness : Nat) (start : Span) (left : Expr) :
    Parser (Option Expr) := do
  match binaryOp? (← kind) with
  | none => return none
  | some op =>
    if op.precedence < tightness then return none
    modify Cursor.advance
    let right ← self (.binary (if op.isRightAssoc then op.precedence else op.precedence + 1))
    return some (.binary (← spanFrom start) op left right)

def binary (self : Grammar) (tightness : Nat) : Parser Expr := do
  let start ← here
  chain (binaryLink self tightness start) (← self .unary)

def conditional (self : Grammar) : Parser Expr := do
  let start ← here
  let cond ← self (.binary 0)
  if ← eat (.punct .question) then
    let thenExpr ← self .expr
    let _ ← expect (.punct .colon)
    let elseExpr ← self .expr
    return .conditional (← spanFrom start) cond thenExpr elseExpr
  return cond

/-- What may stand on the left of an assignment. -/
def isAssignable : Expr → Bool
  | .ident .. | .member .. | .index .. => true
  | _ => false

def expr (self : Grammar) : Parser Expr := do
  match arrowAhead (← get) with
  | some isAsync => arrow self isAsync
  | none =>
    let start ← here
    let target ← conditional self
    match assignOp? (← kind) with
    | none => return target
    | some op =>
      if !isAssignable target then throw (.invalidTarget target)
      modify Cursor.advance
      let value ← self .expr
      return .assign (← spanFrom start) op target value

end MatchChain.Parser
