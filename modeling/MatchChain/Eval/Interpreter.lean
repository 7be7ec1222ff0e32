import MatchChain.Eval.Native

/-!
# Running programs

The functions below follow the tree. They take the number of steps that they may nest, so that they
are total; a run that ends does so with the same result for every larger number.

Members, indices and calls form chains: an optional link on null or undefined ends the whole chain
with undefined. `link` gives none for a chain that ended so.
-/

set_option autoImplicit false

namespace MatchChain

/-- How a statement ended. -/
inductive Flow where
  | normal
  | ret (value : Value)
  | breakTo (label : Option String)
  | continueTo (label : Option String)
deriving DecidableEq, Inhabited

/-- What an assignment writes to. -/
inductive Place where
  | variable (name : String)
  | property (target : Value) (key : String)

/-- What a loop does after a round. -/
inductive AfterRound where
  | again
  | stop (flow : Flow)

/-- A jump without a label, or with the loop's own, is for the loop; all else leaves it. -/
def Flow.afterRound (label : Option String) : Flow → AfterRound
  | .normal | .continueTo none => .again
  | .breakTo none => .stop .normal
  | .continueTo (some target) =>
    if label == some target then .again else .stop (.continueTo (some target))
  | .breakTo (some target) =>
    if label == some target then .stop .normal else .stop (.breakTo (some target))
  | .ret value => .stop (.ret value)

/-- What a labelled statement makes of a jump out of it. -/
def Flow.afterLabel (label : String) : Flow → Flow
  | .breakTo (some target) =>
    if target == label then .normal else .breakTo (some target)
  | flow => flow

/-- What a function's body gives that ended so. -/
def Flow.result : Flow → Value
  | .ret value => value
  | _ => .undefined

/-- Whether a logical operator keeps its left operand. -/
def BinaryOp.keepsLeft? : BinaryOp → Value → Option Bool
  | .and, v => some (!v.isTruthy)
  | .or, v => some v.isTruthy
  | .nullish, v => some (!v.isNullish)
  | _, _ => none

namespace Eval

def readPlace (span : Span) : Place → Eval Value
  | .variable name => lookup name span
  | .property target key => getProperty target key span

def writePlace (span : Span) (value : Value) : Place → Eval Unit
  | .variable name => assign name value span
  | .property target key => setProperty target key value span

/-- Statements in order, up to the first that does not end normally. -/
def sequence (run : Stmt → Eval Flow) : List Stmt → Eval Flow
  | [] => return .normal
  | s :: ss => do
    match ← run s with
    | .normal => sequence run ss
    | flow => return flow

/-- Binds the functions that statements declare, before the first of them runs. -/
def hoist (ss : List Stmt) : Eval Unit :=
  ss.forM fun
    | .funcDecl _ fn =>
      match fn.name with
      | some name => do define name (← newClosure fn) true
      | none => return
    | _ => return

/-- Texts with the values of the holes between them. -/
def weave : List TemplateText → List String → String
  | [], _ => ""
  | t :: ts, [] => t.text ++ weave ts []
  | t :: ts, v :: vs => t.text ++ v ++ weave ts vs

/-- What an object takes over from a value that is spread into it. -/
def spreadFields (v : Value) : Eval (List (String × Value)) := do
  match v with
  | .object cell => fields cell
  | .array cell => return (← items cell).mapIdx fun i x => (toString i, x)
  | _ => return []

/-- Refuses a call beyond the limit, and one of a function that could be suspended. -/
def checkCall (c : Closure) (span : Span) : Eval Unit := do
  let m ← get
  if m.callLimit ≤ m.depth then raise (.callDepth span)
  else if c.fn.isAsync || c.fn.isGenerator then
    raise (.unsupported "async and generator functions" c.fn.span)
  else return

/-- A parameter's argument, with what is left for the parameters after it. -/
def argument (p : Param) (values : List Value) : Eval (Value × List Value) :=
  if p.rest then do return (← newArray values, [])
  else return (values.headD .undefined, values.tail)

/-- Refuses to take null and undefined apart. -/
def checkParts (v : Value) (span : Span) : Eval Unit :=
  if v.isNullish then do typeError (.undestructurable (← text v)) span else return

/-- Runs a catch clause on the error of a block, if it can be caught. -/
def recover (run : CatchClause → Value → Eval Flow) :
    Except EvalError Flow → Option CatchClause → Eval (Except EvalError Flow)
  | .error e, some c =>
    if e.isCatchable then do attempt (withScope (run c (← caught e))) else return .error e
  | result, _ => return result

/-- Runs a finalizer; one that does not end normally hides what came before. -/
def finish (run : List Stmt → Eval Flow) (result : Except EvalError Flow) :
    Option (List Stmt) → Eval Flow
  | none => lift result
  | some body => do
    match ← withScope (run body) with
    | .normal => lift result
    | flow => return flow

mutual

def expr : (steps : Nat) → Expr → Eval Value
  | 0, _ => exhausted
  | n + 1, e => do
    match e with
    | .ident span name => lookup name span
    | .str _ text => return .str text
    | .num _ value => return .number value
    | .bigint _ digits => return .bigint digits
    | .bool _ b => return .bool b
    | .null _ => return .null
    | .thisRef _ => return (← get).this
    | .template _ texts holes =>
      let values ← holes.mapM fun hole => do text (← expr n hole)
      return .str (weave texts values)
    | .array _ elements => newArray (← args n elements)
    | .object _ ps => newObject (← ps.foldlM (prop n) [])
    | .func _ fn => newClosure fn
    | .unary _ .typeOf (.ident _ name) => return .str ((← lookup? name).getD .undefined).kindName
    | .unary span op operand =>
      let v ← expr n operand
      lift ((← get).heap.unary span op v)
    | .binary span op left right =>
      let a ← expr n left
      match op.keepsLeft? a with
      | some true => return a
      | some false => expr n right
      | none =>
        let b ← expr n right
        lift ((← get).heap.binary span op a b)
    | .conditional _ cond thenExpr elseExpr =>
      if (← expr n cond).isTruthy then expr n thenExpr else expr n elseExpr
    | .assign span op target value => assignment n span op target value
    | .member .. | .index .. | .call .. => return (← link n e).getD .undefined
    | .construct span callee arguments => construct n span callee arguments
    | .spread span _ => raise (.unsupported "a spread element here" span)

/-- A link of a chain; none if an optional link ended the chain. -/
def link : (steps : Nat) → Expr → Eval (Option Value)
  | 0, _ => exhausted
  | n + 1, e => do
    match e with
    | .member span object property optional =>
      match ← link n object with
      | none => return none
      | some target =>
        if optional && target.isNullish then return none
        return some (← getProperty target property span)
    | .index span object key optional =>
      match ← link n object with
      | none => return none
      | some target =>
        if optional && target.isNullish then return none
        let key ← text (← expr n key)
        return some (← getProperty target key span)
    | .call span fn arguments optional =>
      match ← callee n fn with
      | none => return none
      | some (function, receiver) =>
        if optional && function.isNullish then return none
        let values ← args n arguments
        return some (← call n function receiver values span)
    | e => return some (← expr n e)

/-- The function that a call invokes, with what it was read from. -/
def callee : (steps : Nat) → Expr → Eval (Option (Value × Value))
  | 0, _ => exhausted
  | n + 1, e => do
    match e with
    | .member span object property optional =>
      match ← link n object with
      | none => return none
      | some receiver =>
        if optional && receiver.isNullish then return none
        return some (← getProperty receiver property span, receiver)
    | .index span object key optional =>
      match ← link n object with
      | none => return none
      | some receiver =>
        if optional && receiver.isNullish then return none
        let key ← text (← expr n key)
        return some (← getProperty receiver key span, receiver)
    | e => return (← link n e).map (·, .undefined)

/-- Arguments or array elements, spread ones in their place. -/
def args : (steps : Nat) → List Expr → Eval (List Value)
  | 0, _ => exhausted
  | n + 1, es => do
    let groups ← es.mapM fun
      | .spread span inner => do iterate (← expr n inner) span
      | e => do return [← expr n e]
    return groups.flatten

/-- An object's properties with one more. -/
def prop : (steps : Nat) → Fields → Property → Eval Fields
  | 0, _, _ => exhausted
  | n + 1, fs, .init _ key value _ => do
    let key ← propKey n key
    return fs.set key (← expr n value)
  | n + 1, fs, .spread _ source => do return fs.setAll (← spreadFields (← expr n source))

def propKey : (steps : Nat) → PropKey → Eval String
  | 0, _ => exhausted
  | _ + 1, .ident name => return name
  | _ + 1, .str text => return text
  | _ + 1, .num value => return value.text
  | n + 1, .computed e => do text (← expr n e)

/-- What a target of an assignment refers to. -/
def place : (steps : Nat) → Expr → Eval Place
  | 0, _ => exhausted
  | _ + 1, .ident _ name => return .variable name
  | n + 1, .member _ object property _ => return .property (← expr n object) property
  | n + 1, .index _ object key _ => do
    let target ← expr n object
    return .property target (← text (← expr n key))
  | _ + 1, e => raise (.unsupported ("assignment to a " ++ e.describe) e.span)

/-- An assignment. A logical one may keep the current value and not evaluate the new one. -/
def assignment : (steps : Nat) → Span → AssignOp → Expr → Expr → Eval Value
  | 0, _, _, _, _ => exhausted
  | n + 1, span, op, target, value => do
    let p ← place n target
    let store (v : Value) : Eval Value := do
      writePlace span v p
      return v
    match op.binary? with
    | none => store (← expr n value)
    | some binary =>
      let current ← readPlace span p
      match binary.keepsLeft? current with
      | some true => return current
      | some false => store (← expr n value)
      | none =>
        let right ← expr n value
        store (← lift ((← get).heap.binary span binary current right))

/-- Calls a value. -/
def call : (steps : Nat) → Value → (this : Value) → List Value → Span → Eval Value
  | 0, _, _, _, _ => exhausted
  | n + 1, function, this, values, span => do
    match function with
    | .function cell =>
      match (← get).heap.cells[cell]? with
      | some (.native fn receiver) => callNative fn receiver values span
      | some (.closure c) => callClosure n c this values span
      | _ => typeError (.notCallable (← text function)) span
    | _ => typeError (.notCallable (← text function)) span

/-- Calls a function of the program. -/
def callClosure : (steps : Nat) → Closure → (this : Value) → List Value → Span → Eval Value
  | 0, _, _, _, _ => exhausted
  | n + 1, c, this, values, span => do
    checkCall c span
    withFrame c.scope (c.this.getD this) do
      params n c.fn.params values
      match c.fn.body with
      | .expr e => expr n e
      | .block body => return (← stmts n body).result

/-- Binds parameters to arguments; one that takes the rest leaves none. -/
def params : (steps : Nat) → List Param → List Value → Eval Unit
  | 0, _, _ => exhausted
  | _ + 1, [], _ => return
  | n + 1, p :: ps, values => do
    let (value, others) ← argument p values
    bindPattern n p.target (← withDefault n value p.default) true
    params n ps others

/-- A value, or the default in place of undefined. -/
def withDefault : (steps : Nat) → Value → Option Expr → Eval Value
  | 0, _, _ => exhausted
  | n + 1, .undefined, some e => expr n e
  | _ + 1, v, _ => return v

/-- Binds the names of a pattern to the parts of a value. -/
def bindPattern : (steps : Nat) → Binding → Value → (isMutable : Bool) → Eval Unit
  | 0, _, _, _ => exhausted
  | n + 1, target, value, isMutable => do
    match target with
    | .ident _ name => define name value isMutable
    | .array span elems => bindElems n elems (← iterate value span) isMutable
    | .object span ps =>
      checkParts value span
      bindProps n span value [] ps isMutable

/-- Binds the elements of an array pattern to values in order. -/
def bindElems : (steps : Nat) → List BindingElem → List Value → (isMutable : Bool) → Eval Unit
  | 0, _, _, _ => exhausted
  | _ + 1, [], _, _ => return
  | n + 1, e :: es, values, isMutable => do
    match e with
    | .hole => bindElems n es values.tail isMutable
    | .item target default =>
      bindPattern n target (← withDefault n (values.headD .undefined) default) isMutable
      bindElems n es values.tail isMutable
    | .rest target =>
      bindPattern n target (← newArray values) isMutable
      bindElems n es [] isMutable

/-- Binds the properties of an object pattern, after those already taken. -/
def bindProps : (steps : Nat) → Span → Value → (taken : List String) → List BindingProp →
    (isMutable : Bool) → Eval Unit
  | 0, _, _, _, _, _ => exhausted
  | _ + 1, _, _, _, [], _ => return
  | n + 1, span, value, taken, p :: ps, isMutable => do
    match p with
    | .rest _ name =>
      define name (← restOf value taken) isMutable
      bindProps n span value taken ps isMutable
    | .item key target default _ =>
      let key ← propKey n key
      let part ← getProperty value key span
      bindPattern n target (← withDefault n part default) isMutable
      bindProps n span value (key :: taken) ps isMutable

/-- Constructs an object: an error, or what a function of the program makes of a new object. -/
def construct : (steps : Nat) → Span → Expr → List Expr → Eval Value
  | 0, _, _, _ => exhausted
  | n + 1, span, fn, arguments => do
    let constructor ← expr n fn
    let values ← args n arguments
    match constructor with
    | .function cell =>
      match (← get).heap.cells[cell]? with
      | some (.native .error _) => callNative .error .undefined values span
      | some (.native native _) => typeError (.notConstructor native.name) span
      | _ =>
        let created ← newObject []
        let result ← call n constructor created values span
        return if result.isReference then result else created
    | _ => typeError (.notConstructor (← text constructor)) span

/-- Statements in the current scope. -/
def stmts : (steps : Nat) → List Stmt → Eval Flow
  | 0, _ => exhausted
  | n + 1, ss => do
    hoist ss
    sequence (stmt n) ss

def stmt : (steps : Nat) → Stmt → Eval Flow
  | 0, _ => exhausted
  | n + 1, s => do
    match s with
    | .expr _ e =>
      let _ ← expr n e
      return .normal
    | .varDecl _ kind ds =>
      ds.forM fun d => do
        let value ← match d.init with
          | some e => expr n e
          | none => pure .undefined
        bindPattern n d.target value (kind != .constVar)
      return .normal
    | .funcDecl .. | .importDecl .. | .empty _ => return .normal
    | .ret _ none => return .ret .undefined
    | .ret _ (some e) => return .ret (← expr n e)
    | .ifElse _ cond thenBranch elseBranch =>
      if (← expr n cond).isTruthy then stmt n thenBranch
      else match elseBranch with
        | some s => stmt n s
        | none => return .normal
    | .block _ body => withScope (stmts n body)
    | .labeled _ label (.whileLoop _ cond body) => loop n cond body (some label)
    | .labeled _ label body => return (← stmt n body).afterLabel label
    | .breakTo _ label => return .breakTo label
    | .continueTo _ label => return .continueTo label
    | .throwing span e => raise (.thrown (← expr n e) span)
    | .tryCatch _ body handler finalizer => tryCatch n body handler finalizer
    | .whileLoop _ cond body => loop n cond body none

/-- A loop, with its label if it has one. -/
def loop : (steps : Nat) → Expr → Stmt → (label : Option String) → Eval Flow
  | 0, _, _, _ => exhausted
  | n + 1, cond, body, label => do
    if (← expr n cond).isTruthy then
      match (← stmt n body).afterRound label with
      | .again => loop n cond body label
      | .stop flow => return flow
    else return .normal

/-- A block with what catches its errors and what runs at its end in any case. -/
def tryCatch : (steps : Nat) → List Stmt → Option CatchClause → Option (List Stmt) → Eval Flow
  | 0, _, _, _ => exhausted
  | n + 1, body, handler, finalizer => do
    let result ← attempt (withScope (stmts n body))
    let result ← recover (catchBody n) result handler
    finish (stmts n) result finalizer

/-- The body of a catch clause, in the scope of its parameter. -/
def catchBody : (steps : Nat) → CatchClause → Value → Eval Flow
  | 0, _, _ => exhausted
  | n + 1, h, value => do
    h.param.forM fun target => bindPattern n target value true
    stmts n h.body

end

end Eval

namespace Machine

/-- More steps than any run takes that ends in a reasonable time. -/
def ampleSteps : Nat := Nat.pow 10 18

/-- Runs a program's statements. -/
def runProgram (m : Machine) (steps : Nat) (p : Program) : Except Halt Flow × Machine :=
  (Eval.stmts steps p).run.run m

/-- Evaluates an expression. -/
def evalExpr (m : Machine) (steps : Nat) (e : Expr) : Except Halt Value × Machine :=
  (Eval.expr steps e).run.run m

/-- The value of a name where the machine stands. -/
def lookup? (m : Machine) (name : String) : Option Value := m.scopes.lookup m.env.current name

end Machine

end MatchChain
