import MatchChain.Syntax.Parser.Basic

/-!
# Reading bindings

Destructuring patterns, object keys and parameter lists.
-/

set_option autoImplicit false

namespace MatchChain.Parser

/-- The value that stands in for a missing one, after an equals sign. -/
def default? (self : Grammar) : Parser (Option Expr) := do
  if ← eat (.punct .eq) then return some (← self .expr) else return none

/-- An object key, with its name if the name could also stand alone. -/
def propKey (self : Grammar) : Parser (PropKey × Option String) := do
  match ← kind with
  | .ident name =>
    modify Cursor.advance
    return (.ident name, some name)
  | .str text =>
    modify Cursor.advance
    return (.str text, none)
  | .num value =>
    modify Cursor.advance
    return (.num value, none)
  | .punct .lbracket =>
    modify Cursor.advance
    let key ← self .expr
    let _ ← expect (.punct .rbracket)
    return (.computed key, none)
  | _ => return (.ident (← propertyName), none)

/-- An element of an array pattern, and whether another may follow. -/
def bindingElem (self : Grammar) : Parser (BindingElem × Bool) := do
  if ← eat (.punct .comma) then return (.hole, true)
  if ← eat (.punct .ellipsis) then return (.rest (← self .binding), false)
  let target ← self .binding
  let default ← default? self
  return (.item target default, ← eat (.punct .comma))

/-- What a property of an object pattern binds, after its key, and whether that is the key itself. -/
def bindingValue (self : Grammar) (keySpan : Span) (alone : Option String) : Parser (Binding × Bool) := do
  if ← eat (.punct .colon) then return (← self .binding, false)
  match alone with
  | some name => return (.ident keySpan name, true)
  | none => failExpected "`:`"

/-- A property of an object pattern, and whether another may follow. -/
def bindingProp (self : Grammar) : Parser (BindingProp × Bool) := do
  if ← eat (.punct .ellipsis) then
    let (name, span) ← name
    return (.rest span name, false)
  let keySpan ← here
  let (key, alone) ← propKey self
  let (value, shorthand) ← bindingValue self keySpan alone
  let default ← default? self
  return (.item key value default shorthand, ← eat (.punct .comma))

/-- A name, an array pattern or an object pattern. -/
def binding (self : Grammar) : Parser Binding := do
  let token ← current
  match token.kind with
  | .ident name =>
    modify Cursor.advance
    return .ident token.span name
  | .punct .lbracket =>
    modify Cursor.advance
    let elems ← collect (·.check (.punct .rbracket)) (bindingElem self)
    let _ ← expect (.punct .rbracket)
    return .array (← spanFrom token.span) elems
  | .punct .lbrace =>
    modify Cursor.advance
    let props ← collect (·.check (.punct .rbrace)) (bindingProp self)
    let _ ← expect (.punct .rbrace)
    return .object (← spanFrom token.span) props
  | found => throw (.expected "binding pattern" found token.span)

/-- A parameter. One that takes the rest of the arguments comes last and has no default. -/
def param (self : Grammar) : Parser Param := do
  let start ← here
  let rest ← eat (.punct .ellipsis)
  let target ← self .binding
  let default ← default? self
  if rest && (default.isSome || !(← check (.punct .rparen))) then
    throw (.misplacedRest (← spanFrom start))
  return { span := ← spanFrom start, target, default, rest }

/-- A parameter list in parentheses. -/
def params (self : Grammar) : Parser (List Param) := do
  let _ ← expect (.punct .lparen)
  commaList (.punct .rparen) (param self)

end MatchChain.Parser
