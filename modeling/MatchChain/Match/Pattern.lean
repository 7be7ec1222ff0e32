import MatchChain.Syntax.Basic

/-!
# Patterns

What a clause tests its subject against. The last four kinds are recognised and refused when a
clause is read, so that no generated code depends on them.
-/

set_option autoImplicit false

namespace MatchChain

/-- A value that a pattern compares with. -/
inductive LiteralPattern where
  | str (text : String)
  | num (value : Double)
  | bool (value : Bool)
  | bigint (digits : String)
  | null
  | undefined
  | nan
deriving DecidableEq, Inhabited

/-- A test of the kind of a value. -/
inductive TypeTag where
  | string
  | number
  | boolean
  | bigint
  | symbol
  /-- Null or undefined. -/
  | nullish
deriving DecidableEq, Inhabited

namespace TypeTag

/-- The kind name that the tag asks for. Null and undefined have none in common. -/
def kindName? : TypeTag → Option String
  | string => some "string"
  | number => some "number"
  | boolean => some "boolean"
  | bigint => some "bigint"
  | symbol => some "symbol"
  | nullish => none

/-- The tag that a member of the pattern namespace names. -/
def ofMember? : String → Option TypeTag
  | "string" => some string
  | "number" => some number
  | "boolean" => some boolean
  | "bigint" => some bigint
  | "symbol" => some symbol
  | "nullish" => some nullish
  | _ => none

end TypeTag

mutual

inductive Pattern where
  | literal (value : LiteralPattern)
  | typeTag (tag : TypeTag)
  | wildcard
  /-- An array that starts like this; more elements may follow. -/
  | array (elements : List Pattern)
  | object (fields : List FieldPattern)
  | select (selection : Select)
  | not (inner : Pattern)
  | when (predicate : Expr)
  | set (inner : Pattern)
  | map (key value : Pattern)

structure FieldPattern where
  name : String
  pattern : Pattern

/-- A request to hand a component to the handler, under a name or as the only one. -/
structure Select where
  span : Span
  name : Option String
  /-- What the component has to match besides. -/
  inner : Option Pattern

end

deriving instance Inhabited for Pattern, Select

namespace Pattern

/-- The name of a pattern's kind in messages. -/
def describe : Pattern → String
  | literal _ => "literal"
  | typeTag _ => "type tag"
  | wildcard => "wildcard"
  | array _ => "array"
  | object _ => "object"
  | select _ => "select"
  | not _ => "not"
  | when _ => "when"
  | set _ => "set"
  | map _ _ => "map"

mutual

/-- All selections, each before those inside it, from left to right. -/
def selections : Pattern → List Select
  | literal _ | typeTag _ | wildcard | when _ => []
  | array elements => listSelections elements
  | object fields => fieldSelections fields
  | select s => s :: innerSelections s
  | not inner => inner.selections
  | set inner => inner.selections
  | map key value => key.selections ++ value.selections

def listSelections : List Pattern → List Select
  | [] => []
  | p :: ps => p.selections ++ listSelections ps

def fieldSelections : List FieldPattern → List Select
  | [] => []
  | ⟨_, p⟩ :: fs => p.selections ++ fieldSelections fs

def innerSelections : Select → List Select
  | ⟨_, _, none⟩ => []
  | ⟨_, _, some p⟩ => p.selections

end

mutual

/-- The first subpattern of a kind that no code is generated for. -/
def unsupported? : Pattern → Option Pattern
  | literal _ | typeTag _ | wildcard => none
  | array elements => listUnsupported? elements
  | object fields => fieldUnsupported? fields
  | select s => innerUnsupported? s
  | not inner => some (not inner)
  | when predicate => some (when predicate)
  | set inner => some (set inner)
  | map key value => some (map key value)

def listUnsupported? : List Pattern → Option Pattern
  | [] => none
  | p :: ps => p.unsupported?.or (listUnsupported? ps)

def fieldUnsupported? : List FieldPattern → Option Pattern
  | [] => none
  | ⟨_, p⟩ :: fs => p.unsupported?.or (fieldUnsupported? fs)

def innerUnsupported? : Select → Option Pattern
  | ⟨_, _, none⟩ => none
  | ⟨_, _, some p⟩ => p.unsupported?

end

end Pattern

end MatchChain
