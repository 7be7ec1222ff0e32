import MatchChain.Match.Chain
import MatchChain.Match.Error
import MatchChain.Number.Style

/-!
# From chains to match expressions

The arguments of a chain are read as patterns, guards and handlers. Object and array literals are
patterns part by part, other literals stand for themselves, and members of the pattern namespace are
type tags, wildcards and selections.
-/

set_option autoImplicit false

namespace MatchChain

/-- The name of a numeric key in an object pattern. -/
def Double.keyName (value : Double) : String := value.fieldText

namespace MatchNames

/-! ## Patterns -/

/-- Namespace members that build patterns outside the supported ones. -/
def refusedMembers : List String :=
  ["union", "intersection", "array", "optional", "instanceOf", "unknown", "infer", "not", "when",
    "set", "map", "select"]

def refusedMember (name : String) (span : Span) : MatchError :=
  .unsupportedKind ("P." ++ name ++ if refusedMembers.contains name then "" else " (unknown)") span

/-- Whether an expression is the pattern namespace. -/
def isNamespace (names : MatchNames) : Expr → Bool
  | .ident _ name => names.patterns == some name
  | _ => false

/-- The member of the pattern namespace that an expression names. -/
def namespaceMember? (names : MatchNames) : Expr → Option String
  | .member _ object property false => if names.isNamespace object then some property else none
  | _ => none

/-- A member on its own: the wildcard or a type tag. -/
def memberPattern (name : String) (span : Span) : Except MatchError Pattern :=
  if name == "_" || name == "any" then .ok .wildcard
  else match TypeTag.ofMember? name with
    | some tag => .ok (.typeTag tag)
    | none => .error (refusedMember name span)

/-- The text of a string literal. -/
def textOf? : Expr → Option String
  | .str _ text => some text
  | _ => none

/-- A selection: of anything, under a name, of what matches a pattern, or both. Beside each argument
    stands the pattern it would be. -/
def selectPattern (span : Span) :
    List (Expr × Except MatchError Pattern) → Except MatchError Pattern
  | [] => .ok (.select ⟨span, none, none⟩)
  | [(only, pattern)] =>
    match textOf? only with
    | some name => .ok (.select ⟨span, some name, none⟩)
    | none => do return .select ⟨span, none, some (← pattern)⟩
  | [(label, _), (_, pattern)] =>
    match textOf? label with
    | some name => do return .select ⟨span, some name, some (← pattern)⟩
    | none => .error (.malformedClause .selectionNameNotText label.span)
  | _ => .error (.malformedClause .selectArity span)

/-- A member called with arguments. -/
def callPattern (name : String) (span : Span) (args : List (Expr × Except MatchError Pattern)) :
    Except MatchError Pattern :=
  match args.find? (·.1.isSpread) with
  | some (arg, _) => .error (.spread arg.span)
  | none =>
    match name, args with
    | "select", args => selectPattern span args
    | "not", [(_, inner)] => do return .not (← inner)
    | "when", [(predicate, _)] => .ok (.when predicate)
    | "set", [(_, inner)] => do return .set (← inner)
    | "map", [(_, key), (_, value)] => do
      let key ← key
      return .map key (← value)
    | name, _ =>
      if ["not", "when", "set", "map"].contains name then
        .error (.malformedClause (.patternArity name) span)
      else .error (refusedMember name span)

/-- The name of a field in an object pattern. -/
def fieldName? : PropKey → Option String
  | .ident name => some name
  | .str text => some text
  | .num value => some value.keyName
  | .computed _ => none

mutual

/-- The pattern that an argument stands for. -/
def pattern (names : MatchNames) : Expr → Except MatchError Pattern
  | .str _ text => .ok (.literal (.str text))
  | .num _ value => .ok (.literal (.num value))
  | .bool _ value => .ok (.literal (.bool value))
  | .bigint _ digits => .ok (.literal (.bigint digits))
  | .null _ => .ok (.literal .null)
  | .ident span name =>
    if name == "undefined" then .ok (.literal .undefined)
    else if name == "NaN" then .ok (.literal .nan)
    else .error (.unsupportedExpr ("identifier `" ++ name ++ "`") span)
  | .unary _ .neg (.num _ value) => .ok (.literal (.num value.neg))
  | .template _ [text] [] => .ok (.literal (.str text.text))
  | .object _ props => do return .object (← fieldPatterns names props)
  | .array span items => do return .array (← elementPatterns names span items)
  | .member span object property false =>
    if names.isNamespace object then memberPattern property span
    else .error (.unsupportedExpr "member access" span)
  | .call span callee args false =>
    let args := argPatterns names args
    match names.namespaceMember? callee with
    | some name => callPattern name span args
    | none => .error (.unsupportedExpr "call expression" span)
  | e => .error (.unsupportedExpr e.describe e.span)

/-- The elements of an array pattern, where nothing may be spread. -/
def elementPatterns (names : MatchNames) (span : Span) :
    List Expr → Except MatchError (List Pattern)
  | [] => .ok []
  | e :: es => do
    if e.isSpread then throw (.unsupportedExpr "spread element in array pattern" span)
    let p ← pattern names e
    return p :: (← elementPatterns names span es)

/-- The fields of an object pattern. -/
def fieldPatterns (names : MatchNames) : List Property → Except MatchError (List FieldPattern)
  | [] => .ok []
  | .spread span _ :: _ => .error (.unsupportedExpr "spread in object pattern" span)
  | .init span key value _ :: ps =>
    match fieldName? key with
    | none => .error (.unsupportedExpr "computed key in object pattern" span)
    | some name => do
      let p ← pattern names value
      return ⟨name, p⟩ :: (← fieldPatterns names ps)

/-- Each argument with the pattern that it would be. -/
def argPatterns (names : MatchNames) : List Expr → List (Expr × Except MatchError Pattern)
  | [] => []
  | e :: es => (e, pattern names e) :: argPatterns names es

end

/-! ## Clauses -/

/-- A fault in a branch that holds a pattern which no code is generated for. -/
def supportFault? (b : Branch) : Option MatchError :=
  (b.patterns.findSome? Pattern.unsupported?).map fun p =>
    .unsupportedKind ("P." ++ p.describe) b.span

/-- The first fault among selections, after those whose names are given and one without a name if
    `anonymous`. -/
def selectionFault? (anonymous : Bool) (named : List String) : List Select → Option MatchError
  | [] => none
  | ⟨span, none, _⟩ :: rest =>
    if anonymous then some (.capture .secondAnonymous span)
    else if !named.isEmpty then some (.capture .mixed span)
    else selectionFault? true named rest
  | ⟨span, some name, _⟩ :: rest =>
    if named.contains name then some (.capture (.repeatedName name) span)
    else if anonymous then some (.capture .mixed span)
    else selectionFault? anonymous (name :: named) rest

/-- A fault in the selections of a branch: only a single pattern may select, and either one thing
    without a name or several under different ones. -/
def captureFault? (b : Branch) : Option MatchError :=
  match b.selections with
  | [] => none
  | first :: rest =>
    if 1 < b.patterns.length then some (.capture .severalAlternatives first.span)
    else selectionFault? false [] (first :: rest)

/-- The arguments of a chain's call; a spread one would hide how many there are. -/
def plainArgs (c : Call) : Except MatchError (List Expr) :=
  match c.args.find? Expr.isSpread with
  | some arg => .error (.spread arg.span)
  | none => .ok c.args

/-- The pattern arguments of a clause and its guard: a function between a single pattern and the
    handler. -/
def splitGuard : List Expr → List Expr × Option Expr
  | [p, guard] => if guard.isFunc then ([p], some guard) else ([p, guard], none)
  | ps => (ps, none)

/-- The branch that a clause registers. -/
def branch (names : MatchNames) (args : List Expr) (span : Span) : Except MatchError Branch := do
  match args.reverse with
  | handler :: first :: others =>
    let (patternArgs, guard) := splitGuard (first :: others).reverse
    let patterns ← patternArgs.mapM (pattern names)
    let b : Branch := { patterns, guard, handler := .ofExpr handler, span }
    match (supportFault? b).or (captureFault? b) with
    | some e => throw e
    | none => return b
  | _ => throw (.malformedClause .incomplete span)

/-! ## Chains -/

/-- The single argument of the root. -/
def subject (root : Call) : Except MatchError Expr := do
  match ← plainArgs root with
  | [subject] => return subject
  | [] => throw (.noSubject root.span)
  | _ => throw (.severalSubjects root.span)

/-- What one operation adds to a match expression; only the last may end it. -/
def apply (names : MatchNames) (m : MatchExpr) (c : Call) (isLast : Bool) :
    Except MatchError MatchExpr := do
  let name := c.operation?.getD ""
  let args ← plainArgs c
  match names.chain.operation name with
  | .clause => return { m with branches := m.branches ++ [← branch names args c.span] }
  | .unknown => throw (.unrecognizedOperation name c.span)
  | operation =>
    if !isLast then throw (.malformedClause (.terminalNotLast name) c.span)
    match operation, args with
    | .fallback, [handler] => return { m with fallback := some (.ofExpr handler) }
    | .fallback, _ => throw (.malformedClause .fallbackArity c.span)
    | _, [] => return { m with exhaustive := operation == .exhaustive }
    | _, _ => throw (.malformedClause (.terminalArguments name) c.span)

/-- Applies operations in order. -/
def applyAll (names : MatchNames) (m : MatchExpr) : List Call → Except MatchError MatchExpr
  | [] => .ok m
  | c :: cs => do applyAll names (← apply names m c cs.isEmpty) cs

/-- The match expression that the calls of a chain build. -/
def ofCalls (names : MatchNames) : List Call → Except MatchError MatchExpr
  | [] => .error (.noSubject .none)
  | root :: operations => do
    let span := (operations.getLast?.getD root).span
    let subject ← subject root
    applyAll names { subject, branches := [], fallback := none, exhaustive := false, span } operations

/-- The match expression that an expression is, if it is a complete chain. -/
def read (names : MatchNames) (e : Expr) : Except MatchError (Option MatchExpr) :=
  match names.recognize e with
  | some calls => (ofCalls names calls).map some
  | none => .ok none

end MatchNames

end MatchChain
