import MatchChain.Number.Style
import MatchChain.Syntax.Tightness
import MatchChain.Text.Quoted

/-!
# Writing programs

The one text of a tree: a statement to a line, two spaces to a level, strings in single quotes,
objects and arrays on one line. Reading the text again and writing that tree gives the same text.

The recursion follows the tree. A child is written first and wrapped in parentheses afterwards, as
its place asks.
-/

set_option autoImplicit false

namespace MatchChain.Print

/-- The start of a line at a level of indentation. -/
def margin (level : Nat) : String := String.ofList (List.replicate (2 * level) ' ')

def parenthesize (wrap : Bool) (text : String) : String :=
  if wrap then "(" ++ text ++ ")" else text

/-- `text` of the expression `e` in a place that asks for some tightness. -/
def place (tightness : Nat) (e : Expr) (text : String) : String :=
  parenthesize (e.tightness < tightness) text

def commaSeparated (texts : List String) : String := ", ".intercalate texts

/-- Entries in braces, spaced from them. -/
def braced (entries : List String) : String :=
  if entries.isEmpty then "\x7b\x7d" else "\x7b " ++ commaSeparated entries ++ " \x7d"

/-- Statements, one to a line, in braces. -/
def blockOf (level : Nat) (isEmpty : Bool) (lines : String) : String :=
  if isEmpty then "\x7b\x7d" else "\x7b\n" ++ lines ++ margin level ++ "\x7d"

/-- The texts of a template with the code of the holes between them. -/
def templateBody : List TemplateText → List String → String
  | [], _ => ""
  | t :: ts, [] => String.ofList (Text.escapeTemplate t.text.toList) ++ templateBody ts []
  | t :: ts, hole :: holes =>
    String.ofList (Text.escapeTemplate t.text.toList) ++ "$\x7b" ++ hole ++ "\x7d"
      ++ templateBody ts holes

def importSpecifier (spec : ImportSpecifier) : String :=
  if spec.imported == spec.localName then spec.imported
  else spec.imported ++ " as " ++ spec.localName

/-- The default and the whole-module bindings in their order, then the named ones in braces. -/
def importClause (specs : List ImportSpecifier) : String :=
  let leading := specs.filterMap fun spec =>
    match spec.kind with
    | .default => some spec.localName
    | .star => some ("* as " ++ spec.localName)
    | .named => none
  let named := specs.filter (·.kind == .named)
  let named := if named.isEmpty then [] else [braced (named.map importSpecifier)]
  commaSeparated (leading ++ named)

def importDecl (specs : List ImportSpecifier) (source : String) : String :=
  let clause := if specs.isEmpty then "" else importClause specs ++ " from "
  "import " ++ clause ++ Text.quote source ++ ";"

def jump (word : String) : Option String → String
  | some label => word ++ " " ++ label ++ ";"
  | none => word ++ ";"

def isBlock : Stmt → Bool
  | .block .. => true
  | _ => false

def isIf : Stmt → Bool
  | .ifElse .. => true
  | _ => false

/-- Where the body of a condition or loop goes: a block on the same line, any other statement on the
    next line, one level deeper. -/
def bodyLevel (level : Nat) (onSameLine : Bool) : Nat := if onSameLine then level else level + 1

def bodyStart (level : Nat) (onSameLine : Bool) : String :=
  if onSameLine then " " else "\n" ++ margin (level + 1)

/-- Whether a property standing alone still binds the name that it reads. -/
def isShorthand (shorthand : Bool) (key : PropKey) (value : Option String) : Bool :=
  shorthand && match key with
    | .ident name => value == some name
    | _ => false

def bindingName? : Binding → Option String
  | .ident _ name => some name
  | _ => none

/-- What is written after the last element of an array pattern: a hole needs its own comma. -/
def trailingComma (elems : List BindingElem) : String :=
  match elems.getLast? with
  | some .hole => ","
  | _ => ""

mutual

/-- The text of an expression without parentheses around it, in a statement at some level. -/
def expr (level : Nat) : Expr → String
  | .ident _ name => name
  | .str _ text => Text.quote text
  | .num _ value => value.literalText
  | .bigint _ digits => digits ++ "n"
  | .bool _ value => if value then "true" else "false"
  | .null _ => "null"
  | .thisRef _ => "this"
  | .template _ texts holes => "`" ++ templateBody texts (holeTexts level holes) ++ "`"
  | .array _ elements => "[" ++ commaSeparated (items level elements) ++ "]"
  | .object _ properties => braced (props level properties)
  | .func _ fn => func level fn
  | .unary _ op operand =>
    op.text ++ (if op.isWord || operand.signsCollide op then " " else "")
      ++ place Tightness.unary operand (expr level operand)
  | .binary _ op left right =>
    let leftMin := if op.isRightAssoc then op.precedence + 1 else op.precedence
    let rightMin := if op.isRightAssoc then op.precedence else op.precedence + 1
    parenthesize (left.tightness < leftMin || left.mixesNullish op || left.isUnaryBase op)
        (expr level left)
      ++ " " ++ op.text ++ " "
      ++ parenthesize (right.tightness < rightMin || right.mixesNullish op) (expr level right)
  | .conditional _ cond thenExpr elseExpr =>
    place (Tightness.conditional + 1) cond (expr level cond)
      ++ " ? " ++ place Tightness.assignment thenExpr (expr level thenExpr)
      ++ " : " ++ place Tightness.assignment elseExpr (expr level elseExpr)
  | .assign _ op target value =>
    place Tightness.postfixed target (expr level target) ++ " " ++ op.text ++ " "
      ++ place Tightness.assignment value (expr level value)
  | .member _ object property optional =>
    parenthesize (object.tightness < Tightness.postfixed || object.isNum) (expr level object)
      ++ (if optional then "?." else ".") ++ property
  | .index _ object key optional =>
    parenthesize (object.tightness < Tightness.postfixed || object.isNum) (expr level object)
      ++ (if optional then "?.[" else "[") ++ expr level key ++ "]"
  | .call _ callee args optional =>
    parenthesize (callee.isFunc || callee.tightness < Tightness.postfixed) (expr level callee)
      ++ (if optional then "?.(" else "(") ++ commaSeparated (items level args) ++ ")"
  | .construct _ callee args =>
    "new " ++ parenthesize (callee.tightness < Tightness.postfixed || callee.hasCallLink)
        (expr level callee)
      ++ "(" ++ commaSeparated (items level args) ++ ")"
  | .spread _ operand => "..." ++ place Tightness.assignment operand (expr level operand)

/-- Arguments and array elements. -/
def items (level : Nat) : List Expr → List String
  | [] => []
  | e :: es => place Tightness.assignment e (expr level e) :: items level es

def holeTexts (level : Nat) : List Expr → List String
  | [] => []
  | e :: es => expr level e :: holeTexts level es

def props (level : Nat) : List Property → List String
  | [] => []
  | p :: ps => prop level p :: props level ps

def prop (level : Nat) : Property → String
  | .init _ key value shorthand =>
    (if isShorthand shorthand key value.identName? then "" else propKey level key ++ ": ")
      ++ place Tightness.assignment value (expr level value)
  | .spread _ value => "..." ++ place Tightness.assignment value (expr level value)

def propKey (level : Nat) : PropKey → String
  | .ident name => name
  | .str text => Text.quote text
  | .num value => value.literalText
  | .computed e => "[" ++ place Tightness.assignment e (expr level e) ++ "]"

def func (level : Nat) : Func → String
  | ⟨_, kind, name, ps, body, isAsync, isGenerator⟩ =>
    let list := "(" ++ commaSeparated (params level ps) ++ ")"
    (if isAsync then "async " else "")
      ++ match kind with
        | .arrow => list ++ " => " ++ arrowBody level body
        | _ =>
          "function" ++ (if isGenerator then "*" else "") ++ " " ++ name.getD "" ++ list ++ " "
            ++ funcBody level body

def arrowBody (level : Nat) : FuncBody → String
  | .expr e => parenthesize (e.startsLikeBlock || e.tightness < Tightness.assignment) (expr level e)
  | .block body => blockOf level body.isEmpty (stmts (level + 1) body)

def funcBody (level : Nat) : FuncBody → String
  | .expr e => "\x7b return " ++ expr level e ++ "; \x7d"
  | .block body => blockOf level body.isEmpty (stmts (level + 1) body)

def params (level : Nat) : List Param → List String
  | [] => []
  | p :: ps => param level p :: params level ps

def param (level : Nat) : Param → String
  | ⟨_, target, default, rest⟩ =>
    (if rest then "..." else "") ++ binding level target ++ defaultText level default

/-- The equals sign and value of a default or an initial value. -/
def defaultText (level : Nat) : Option Expr → String
  | none => ""
  | some e => " = " ++ place Tightness.assignment e (expr level e)

def binding (level : Nat) : Binding → String
  | .ident _ name => name
  | .array _ elems =>
    "[" ++ commaSeparated (bindingElems level elems) ++ trailingComma elems ++ "]"
  | .object _ ps => braced (bindingProps level ps)

def bindingElems (level : Nat) : List BindingElem → List String
  | [] => []
  | e :: es => bindingElem level e :: bindingElems level es

def bindingElem (level : Nat) : BindingElem → String
  | .hole => ""
  | .item target default => binding level target ++ defaultText level default
  | .rest target => "..." ++ binding level target

def bindingProps (level : Nat) : List BindingProp → List String
  | [] => []
  | p :: ps => bindingProp level p :: bindingProps level ps

def bindingProp (level : Nat) : BindingProp → String
  | .item key value default shorthand =>
    (if isShorthand shorthand key (bindingName? value) then "" else propKey level key ++ ": ")
      ++ binding level value ++ defaultText level default
  | .rest _ name => "..." ++ name

/-- The text of a statement without its margin and line end. -/
def stmt (level : Nat) : Stmt → String
  | .expr _ e => parenthesize e.startsLikeBlock (expr level e) ++ ";"
  | .varDecl _ kind ds => kind.text ++ " " ++ commaSeparated (declarators level ds) ++ ";"
  | .funcDecl _ fn => func level fn
  | .ret _ value => "return" ++ returned level value ++ ";"
  | .ifElse _ cond thenBranch elseBranch =>
    let sameLine := isBlock thenBranch
    "if (" ++ expr level cond ++ ")" ++ bodyStart level sameLine
      ++ stmt (bodyLevel level sameLine) thenBranch
      ++ elseText level sameLine elseBranch
  | .block _ body => blockOf level body.isEmpty (stmts (level + 1) body)
  | .labeled _ label body => label ++ ": " ++ stmt level body
  | .breakTo _ label => jump "break" label
  | .continueTo _ label => jump "continue" label
  | .throwing _ value => "throw " ++ expr level value ++ ";"
  | .tryCatch _ body handler finalizer =>
    "try " ++ blockOf level body.isEmpty (stmts (level + 1) body) ++ catchText level handler
      ++ finallyText level finalizer
  | .whileLoop _ cond body =>
    let sameLine := isBlock body
    "while (" ++ expr level cond ++ ")" ++ bodyStart level sameLine
      ++ stmt (bodyLevel level sameLine) body
  | .importDecl _ specs source => importDecl specs source
  | .empty _ => ";"

/-- Statements with their margins and line ends. -/
def stmts (level : Nat) : List Stmt → String
  | [] => ""
  | s :: ss => margin level ++ stmt level s ++ "\n" ++ stmts level ss

def declarators (level : Nat) : List Declarator → List String
  | [] => []
  | d :: ds => declarator level d :: declarators level ds

def declarator (level : Nat) : Declarator → String
  | ⟨_, target, init⟩ => binding level target ++ defaultText level init

def returned (level : Nat) : Option Expr → String
  | none => ""
  | some e => " " ++ expr level e

/-- The other branch. It follows a block on the same line, and a condition in it stays on its line. -/
def elseText (level : Nat) (afterBlock : Bool) : Option Stmt → String
  | none => ""
  | some s =>
    let sameLine := isBlock s || isIf s
    (if afterBlock then " " else "\n" ++ margin level) ++ "else" ++ bodyStart level sameLine
      ++ stmt (bodyLevel level sameLine) s

def catchText (level : Nat) : Option CatchClause → String
  | none => ""
  | some ⟨param, body⟩ =>
    " catch " ++ catchParam level param ++ blockOf level body.isEmpty (stmts (level + 1) body)

def catchParam (level : Nat) : Option Binding → String
  | none => ""
  | some target => "(" ++ binding level target ++ ") "

def finallyText (level : Nat) : Option (List Stmt) → String
  | none => ""
  | some body => " finally " ++ blockOf level body.isEmpty (stmts (level + 1) body)

end

end MatchChain.Print

namespace MatchChain

/-- The text of one expression. -/
def Expr.print (e : Expr) : String := Print.expr 0 e

/-- The text of a destructuring pattern. -/
def Binding.print (b : Binding) : String := Print.binding 0 b

/-- The text of a program, a line for each statement at least. -/
def Program.print (p : Program) : String := Print.stmts 0 p

end MatchChain
