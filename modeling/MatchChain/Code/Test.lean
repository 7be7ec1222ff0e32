import MatchChain.Code.Error
import MatchChain.Match.Pattern
import MatchChain.Text.Letters

/-!
# Tests and captures

A pattern becomes a list of conditions that all have to hold of its target, and a list of the
components that it selects. A wildcard or a bare selection adds no condition. Some kinds have no
test: `checkTestable` refuses every pattern that holds one of them, so nothing is generated for it.
-/

set_option autoImplicit false

namespace MatchChain

/-- How components of the target are written. -/
structure AccessStyle where
  /-- The span of all generated nodes. -/
  span : Span
  /-- Whether every access lets null and undefined pass. -/
  nullSafe : Bool

namespace AccessStyle

/-- A field by its name, in brackets unless the name is an identifier. -/
def field (style : AccessStyle) (target : Expr) (name : String) : Expr :=
  if Text.isIdentifierName name then .member style.span target name style.nullSafe
  else .index style.span target (.str style.span name) style.nullSafe

def element (style : AccessStyle) (target : Expr) (position : Nat) : Expr :=
  .index style.span target (.num style.span (.ofNat position)) style.nullSafe

def length (style : AccessStyle) (target : Expr) : Expr :=
  .member style.span target "length" style.nullSafe

/-- A call of a function that a global object holds. -/
def globalCall (style : AccessStyle) (object function : String) (arg : Expr) : Expr :=
  .call style.span (.member style.span (.ident style.span object) function false) [arg] false

end AccessStyle

namespace LiteralPattern

/-- The condition that a target is this value. Only not-a-number is no value of its own equal. -/
def test (style : AccessStyle) (target : Expr) : LiteralPattern → Expr
  | str text => equals (.str style.span text)
  | num value => equals (.num style.span value)
  | bool value => equals (.bool style.span value)
  | bigint digits => equals (.bigint style.span digits)
  | null => equals (.null style.span)
  | undefined => equals (.ident style.span "undefined")
  | nan => style.globalCall "Number" "isNaN" target
where
  equals (value : Expr) : Expr := .binary style.span .strictEq target value

end LiteralPattern

namespace TypeTag

/-- The condition that a target has this kind. Loose equality with null holds of null and undefined
    alone. -/
def test (style : AccessStyle) (target : Expr) (tag : TypeTag) : Expr :=
  match tag.kindName? with
  | some name =>
    .binary style.span .strictEq (.unary style.span .typeOf target) (.str style.span name)
  | none => .binary style.span .looseEq target (.null style.span)

end TypeTag

/-- A selected component. -/
structure Capture where
  name : Option String
  value : Expr

namespace Pattern

mutual

/-- The conditions that make a target match, in the order in which they are tested. -/
def tests (style : AccessStyle) (target : Expr) : Pattern → List Expr
  | literal value => [value.test style target]
  | typeTag tag => [tag.test style target]
  | array elements =>
    style.globalCall "Array" "isArray" target
      :: (if elements.isEmpty then []
          else [.binary style.span .gtEq (style.length target)
            (.num style.span (.ofNat elements.length))])
      ++ elementTests style target 0 elements
  | object fields => fieldTests style target fields
  | select s => innerTests style target s
  | wildcard | not _ | when _ | set _ | map _ _ => []

/-- The conditions of the elements from a position on. -/
def elementTests (style : AccessStyle) (target : Expr) (position : Nat) : List Pattern → List Expr
  | [] => []
  | p :: ps =>
    p.tests style (style.element target position) ++ elementTests style target (position + 1) ps

def fieldTests (style : AccessStyle) (target : Expr) : List FieldPattern → List Expr
  | [] => []
  | ⟨name, p⟩ :: fs => p.tests style (style.field target name) ++ fieldTests style target fs

def innerTests (style : AccessStyle) (target : Expr) : Select → List Expr
  | ⟨_, _, none⟩ => []
  | ⟨_, _, some p⟩ => p.tests style target

end

mutual

/-- Refuses a pattern at the first of its parts that has no test. -/
def checkTestable (span : Span) : Pattern → Except GenerateError Unit
  | literal _ | typeTag _ | wildcard => .ok ()
  | array elements => checkElements span elements
  | object fields => checkFields span fields
  | select s => checkInner span s
  | p@(not _) | p@(when _) | p@(set _) | p@(map _ _) =>
    .error (.unsupportedPattern p.describe span)

def checkElements (span : Span) : List Pattern → Except GenerateError Unit
  | [] => .ok ()
  | p :: ps => do
    p.checkTestable span
    checkElements span ps

def checkFields (span : Span) : List FieldPattern → Except GenerateError Unit
  | [] => .ok ()
  | ⟨_, p⟩ :: fs => do
    p.checkTestable span
    checkFields span fs

def checkInner (span : Span) : Select → Except GenerateError Unit
  | ⟨_, _, none⟩ => .ok ()
  | ⟨_, _, some p⟩ => p.checkTestable span

end

mutual

/-- The components that a pattern selects, in the order of its selections. -/
def captures (style : AccessStyle) (target : Expr) : Pattern → List Capture
  | array elements => elementCaptures style target 0 elements
  | object fields => fieldCaptures style target fields
  | select s => ⟨s.name, target⟩ :: innerCaptures style target s
  | literal _ | typeTag _ | wildcard | not _ | when _ | set _ | map _ _ => []

def elementCaptures (style : AccessStyle) (target : Expr) (position : Nat) :
    List Pattern → List Capture
  | [] => []
  | p :: ps =>
    p.captures style (style.element target position)
      ++ elementCaptures style target (position + 1) ps

def fieldCaptures (style : AccessStyle) (target : Expr) : List FieldPattern → List Capture
  | [] => []
  | ⟨name, p⟩ :: fs => p.captures style (style.field target name) ++ fieldCaptures style target fs

def innerCaptures (style : AccessStyle) (target : Expr) : Select → List Capture
  | ⟨_, _, none⟩ => []
  | ⟨_, _, some p⟩ => p.captures style target

end

end Pattern

/-- Operands joined from the left; nothing for none. -/
def Expr.joined? (span : Span) (op : BinaryOp) : List Expr → Option Expr
  | [] => none
  | e :: es => some (es.foldl (fun left right => .binary span op left right) e)

/-- A key of a generated object, quoted unless it is an identifier. -/
def PropKey.named (name : String) : PropKey :=
  if Text.isIdentifierName name then .ident name else .str name

/-- What a handler is given: the component itself for a single one without a name, otherwise an
    object with the named ones. -/
def Capture.value? (span : Span) : List Capture → Option Expr
  | [] => none
  | [⟨none, value⟩] => some value
  | captures => some <| .object span <| captures.filterMap fun c =>
      c.name.map fun name => .init span (.named name) c.value false

end MatchChain
