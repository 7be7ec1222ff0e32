import MatchChain.Syntax.Parser.Expr

/-!
# Reading statements
-/

set_option autoImplicit false

namespace MatchChain.Parser

/-! ## Declarations -/

def declarator (self : Grammar) (kind : VarKind) : Parser Declarator := do
  let start ← here
  let target ← self .binding
  let init ← default? self
  if init.isNone && kind == .constVar then throw (.uninitializedConst (← spanFrom start))
  return { span := ← spanFrom start, target, init }

/-- A declaration, from its keyword on. -/
def varDecl (self : Grammar) (start : Span) (kind : VarKind) : Parser Stmt := do
  modify Cursor.advance
  let declarators ← collect (fun _ => false) (itemOf (declarator self kind))
  endStatement
  return .varDecl (← spanFrom start) kind declarators

/-! ## Imports -/

/-- What a specifier in braces imports: a name or string. -/
def importedName : Parser String := do
  match ← kind with
  | .str text =>
    modify Cursor.advance
    return text
  | _ => propertyName

/-- The name that an import is bound to, if it is not its own. -/
def localName (imported : String) : Parser String := do
  if ← atWord "as" then
    modify Cursor.advance
    return (← name).1
  return imported

/-- A specifier in braces. -/
def namedSpecifier : Parser ImportSpecifier := do
  let start ← here
  let imported ← importedName
  let localName ← localName imported
  return { kind := .named, imported, localName, span := ← spanFrom start }

/-- A star or the specifiers in braces. -/
def importList : Parser (List ImportSpecifier) := do
  let token ← current
  match token.kind with
  | .punct .star =>
    modify Cursor.advance
    expectWord "as"
    let (localName, _) ← name
    return [{ kind := .star, imported := "*", localName, span := ← spanFrom token.span }]
  | .punct .lbrace =>
    modify Cursor.advance
    commaList (.punct .rbrace) namedSpecifier
  | found => throw (.expected "import specifier" found token.span)

/-- What an import binds: a default, a list, or both with a comma between. -/
def importSpecifiers : Parser (List ImportSpecifier) := do
  let token ← current
  match token.kind with
  | .ident localName =>
    modify Cursor.advance
    let first := { kind := .default, imported := "default", localName, span := token.span }
    if ← eat (.punct .comma) then return first :: (← importList) else return [first]
  | _ => importList

def importDecl (start : Span) : Parser Stmt := do
  modify Cursor.advance
  match ← kind with
  | .str source =>
    modify Cursor.advance
    endStatement
    return .importDecl (← spanFrom start) [] source
  | _ =>
    let specifiers ← importSpecifiers
    expectWord "from"
    match ← kind with
    | .str source =>
      modify Cursor.advance
      endStatement
      return .importDecl (← spanFrom start) specifiers source
    | _ => failExpected "module specifier"

/-! ## Control flow -/

/-- A condition in parentheses. -/
def condition (self : Grammar) : Parser Expr := do
  let _ ← expect (.punct .lparen)
  let cond ← self .expr
  let _ ← expect (.punct .rparen)
  return cond

def elseBranch? (self : Grammar) : Parser (Option Stmt) := do
  if ← eat (.keyword .«else») then return some (← self .stmt) else return none

def ifElse (self : Grammar) (start : Span) : Parser Stmt := do
  modify Cursor.advance
  let cond ← condition self
  let thenBranch ← self .stmt
  let elseBranch ← elseBranch? self
  return .ifElse (← spanFrom start) cond thenBranch elseBranch

/-- The label of a jump, on the same line. -/
def jumpLabel : Parser (Option String) := do
  let token ← current
  match token.kind with
  | .ident name =>
    if token.newlineBefore then return none
    modify Cursor.advance
    return some name
  | _ => return none

/-- A jump, from its keyword on. -/
def jump : Parser (Option String) := do
  modify Cursor.advance
  let label ← jumpLabel
  endStatement
  return label

/-- The parameter of a clause that catches, in parentheses. -/
def catchParam (self : Grammar) : Parser (Option Binding) := do
  if ← eat (.punct .lparen) then
    let target ← self .binding
    let _ ← expect (.punct .rparen)
    return some target
  return none

def catchClause (self : Grammar) : Parser CatchClause := do
  let param ← catchParam self
  return { param, body := ← block self }

def handler? (self : Grammar) : Parser (Option CatchClause) := do
  if ← eat (.keyword .«catch») then return some (← catchClause self) else return none

def finalizer? (self : Grammar) : Parser (Option (List Stmt)) := do
  if ← eat (.keyword .«finally») then return some (← block self) else return none

def tryCatch (self : Grammar) (start : Span) : Parser Stmt := do
  modify Cursor.advance
  let body ← block self
  let handler ← handler? self
  let finalizer ← finalizer? self
  if handler.isNone && finalizer.isNone then throw (.bareTry (← spanFrom start))
  return .tryCatch (← spanFrom start) body handler finalizer

/-- The value of a `return`, on the same line. -/
def returnValue (self : Grammar) : Parser (Option Expr) := do
  let token ← current
  match token.kind with
  | .punct .semicolon | .punct .rbrace | .eof => return none
  | _ => if token.newlineBefore then return none else return some (← self .expr)

def ret (self : Grammar) (start : Span) : Parser Stmt := do
  modify Cursor.advance
  let value ← returnValue self
  endStatement
  return .ret (← spanFrom start) value

def throwing (self : Grammar) (start : Span) : Parser Stmt := do
  modify Cursor.advance
  let token ← current
  if token.newlineBefore then throw (.newlineAfterThrow token.span)
  let value ← self .expr
  endStatement
  return .throwing (← spanFrom start) value

def exprStmt (self : Grammar) (start : Span) : Parser Stmt := do
  let value ← self .expr
  endStatement
  return .expr (← spanFrom start) value

/-- A statement that starts with a name: a function marked as asynchronous, a label or an
    expression. -/
def nameStmt (self : Grammar) (start : Span) (name : String) : Parser Stmt := do
  let c ← get
  if asyncFunctionAhead c then
    modify Cursor.advance
    let fn ← function self .declaration start true
    return .funcDecl (← spanFrom start) fn
  else if (c.peek 1).kind == .punct .colon then
    modify Cursor.advance
    modify Cursor.advance
    let body ← self .stmt
    return .labeled (← spanFrom start) name body
  else exprStmt self start

def stmt (self : Grammar) : Parser Stmt := do
  let token ← current
  let start := token.span
  match token.kind with
  | .keyword .«let» => varDecl self start .letVar
  | .keyword .«const» => varDecl self start .constVar
  | .keyword .«var» => varDecl self start .plainVar
  | .keyword .«function» =>
    let fn ← function self .declaration start false
    return .funcDecl (← spanFrom start) fn
  | .ident name => nameStmt self start name
  | .keyword .«return» => ret self start
  | .keyword .«if» => ifElse self start
  | .punct .lbrace =>
    let body ← block self
    return .block (← spanFrom start) body
  | .keyword .«break» =>
    let label ← jump
    return .breakTo (← spanFrom start) label
  | .keyword .«continue» =>
    let label ← jump
    return .continueTo (← spanFrom start) label
  | .keyword .«throw» => throwing self start
  | .keyword .«try» => tryCatch self start
  | .keyword .«while» =>
    modify Cursor.advance
    let cond ← condition self
    let body ← self .stmt
    return .whileLoop (← spanFrom start) cond body
  | .keyword .«import» =>
    if ((← get).peek 1).kind == .punct .lparen then exprStmt self start else importDecl start
  | .punct .semicolon =>
    modify Cursor.advance
    return .empty (← spanFrom start)
  | _ => exprStmt self start

end MatchChain.Parser
