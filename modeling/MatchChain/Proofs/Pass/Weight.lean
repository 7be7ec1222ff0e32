import MatchChain.Proofs.Code.Accesses
import MatchChain.Proofs.Pass.Depth
import MatchChain.Proofs.Pass.Spine

/-!
# How many chains a tree can hold

A chain starts with a call of the matcher, on whose result an operation is looked up. `Weight` counts these
look-ups. Each chain that is compiled uses one of them up, and the code in its place holds no other ones than
the chain did, except in one way: every exit of the code of an assigned chain holds a copy of the target,
which is walked at one of them only. So the weight is taken under a credit for each shared target, by span: a
copy of it weighs only what the credit does not cover.
-/

set_option autoImplicit false

namespace MatchChain

/-- Whether an expression is a call of the matcher. -/
def Expr.isRoot (matcher : String) : Expr → Bool
  | .call _ (.ident _ name) _ false => name == matcher
  | _ => false

/-- What is paid in advance for the walk of a shared target. -/
abbrev Credit := Span → Nat

/-- The credit without what it holds for a span. -/
def Credit.erase (credit : Credit) (span : Span) : Credit := fun other => if other = span then 0 else credit other

namespace Weight

variable (matcher : String)

mutual

/-- The look-ups on calls of the matcher in an expression. If it is a part of a chain that was `offered`, the
    one of that chain does not count. -/
def expr (credit : Credit) (offered : Bool) : Expr → Nat
  | .ident .. | .str .. | .num .. | .bigint .. | .bool .. | .null _ | .thisRef _ => 0
  | .template _ _ holes => exprs credit holes
  | .array _ items => exprs credit items
  | .object _ ps => props credit ps
  | .func _ fn => func credit fn
  | .unary _ _ operand => expr credit false operand
  | .binary _ _ left right => expr credit false left + expr credit false right
  | .conditional _ cond thenExpr elseExpr =>
    expr credit false cond + expr credit false thenExpr + expr credit false elseExpr
  | .assign _ _ target value => expr credit false target + expr credit false value
  | .member _ object _ optional =>
    (if !offered && !optional && object.isRoot matcher then 1 else 0) + expr credit offered object
  | .index _ object key _ => expr credit false object + expr credit false key
  | .call _ callee args _ => expr credit offered callee + exprs credit args
  | .construct _ callee args => expr credit false callee + exprs credit args
  | .spread _ operand => expr credit false operand

def exprs (credit : Credit) : List Expr → Nat
  | [] => 0
  | e :: es => expr credit false e + exprs credit es

def expr? (credit : Credit) (offered : Bool) : Option Expr → Nat
  | none => 0
  | some e => expr credit offered e

def props (credit : Credit) : List Property → Nat
  | [] => 0
  | p :: ps => prop credit p + props credit ps

def prop (credit : Credit) : Property → Nat
  | .init _ key value _ => propKey credit key + expr credit false value
  | .spread _ value => expr credit false value

def propKey (credit : Credit) : PropKey → Nat
  | .computed e => expr credit false e
  | _ => 0

def func (credit : Credit) : Func → Nat
  | ⟨_, _, _, ps, body, _, _⟩ => params credit ps + funcBody credit body

def params (credit : Credit) : List Param → Nat
  | [] => 0
  | ⟨_, target, default, _⟩ :: ps => binding credit target + expr? credit false default + params credit ps

def funcBody (credit : Credit) : FuncBody → Nat
  | .expr e => expr credit false e
  | .block body => stmts credit body

def binding (credit : Credit) : Binding → Nat
  | .ident .. => 0
  | .array _ es => elems credit es
  | .object _ ps => bindingProps credit ps

def elems (credit : Credit) : List BindingElem → Nat
  | [] => 0
  | e :: es => elem credit e + elems credit es

def elem (credit : Credit) : BindingElem → Nat
  | .hole => 0
  | .item target default => binding credit target + expr? credit false default
  | .rest target => binding credit target

def bindingProps (credit : Credit) : List BindingProp → Nat
  | [] => 0
  | p :: ps => bindingProp credit p + bindingProps credit ps

def bindingProp (credit : Credit) : BindingProp → Nat
  | .item key value default _ => propKey credit key + binding credit value + expr? credit false default
  | .rest .. => 0

/-- The look-ups in a statement, whose call may have been `offered`. While a shared target is walked there is
    no credit for its span. -/
def stmt (credit : Credit) (offered : Bool) : Stmt → Nat
  | .expr _ (.assign _ _ target value) =>
    (expr (credit.erase target.span) false target - credit target.span) + expr credit offered value
  | .expr _ e => expr credit false e
  | .varDecl _ _ ds => declarators credit offered ds
  | .funcDecl _ fn => func credit fn
  | .ret _ value => expr? credit false value
  | .ifElse _ cond thenBranch elseBranch =>
    expr credit false cond + stmt credit false thenBranch + stmt? credit elseBranch
  | .block _ body => stmts credit body
  | .labeled _ _ body => stmt credit false body
  | .throwing _ value => expr credit false value
  | .tryCatch _ body handler finalizer =>
    stmts credit body + catchClause? credit handler + stmts? credit finalizer
  | .whileLoop _ cond body => expr credit false cond + stmt credit false body
  | .breakTo .. | .continueTo .. | .importDecl .. | .empty .. => 0

def stmts (credit : Credit) : List Stmt → Nat
  | [] => 0
  | s :: ss => stmt credit false s + stmts credit ss

def stmt? (credit : Credit) : Option Stmt → Nat
  | none => 0
  | some s => stmt credit false s

def stmts? (credit : Credit) : Option (List Stmt) → Nat
  | none => 0
  | some ss => stmts credit ss

def declarators (credit : Credit) (offered : Bool) : List Declarator → Nat
  | [] => 0
  | ⟨_, target, init⟩ :: ds =>
    binding credit target + expr? credit offered init + declarators credit offered ds

def catchClause? (credit : Credit) : Option CatchClause → Nat
  | none => 0
  | some ⟨none, body⟩ => stmts credit body
  | some ⟨some param, body⟩ => binding credit param + stmts credit body

end

attribute [simp] expr exprs expr? props prop propKey func params funcBody binding elems elem bindingProps bindingProp
  stmt stmts stmt? stmts? declarators catchClause?

variable {matcher}

/-! ## Lists -/

theorem exprs_append (credit : Credit) (es es' : List Expr) :
    exprs matcher credit (es ++ es') = exprs matcher credit es + exprs matcher credit es' := by
  induction es <;> simp_all [Nat.add_assoc]

theorem stmts_append (credit : Credit) (ss ss' : List Stmt) :
    stmts matcher credit (ss ++ ss') = stmts matcher credit ss + stmts matcher credit ss' := by
  induction ss <;> simp_all [Nat.add_assoc]

theorem stmts_singleton (credit : Credit) (s : Stmt) : stmts matcher credit [s] = stmt matcher credit false s := by
  rw [stmts, stmts, Nat.add_zero]

/-! ## More credit -/

theorem erase_le_erase {credit credit' : Credit} (h : credit ≤ credit') (span : Span) :
    credit.erase span ≤ credit'.erase span := by
  intro other
  unfold Credit.erase
  split
  · exact Nat.le_refl 0
  · exact h other

/-- A weight that is no greater under more credit. -/
def Anti (weight : Credit → Nat) (credit : Credit) : Prop := ∀ ⦃credit'⦄, credit ≤ credit' → weight credit' ≤ weight credit

/-- A tree weighs less under more credit. -/
theorem expr_anti {credit credit' : Credit} (h : credit ≤ credit') {offered : Bool} (e : Expr) :
    expr matcher credit' offered e ≤ expr matcher credit offered e := by
  suffices hanti : Anti (expr matcher · offered e) credit from hanti h
  apply expr.induct (fun c offered e => Anti (expr matcher · offered e) c) (fun c fn => Anti (func matcher · fn) c)
    (fun c body => Anti (funcBody matcher · body) c) (fun c ss => Anti (stmts matcher · ss) c)
    (fun c offered s => Anti (stmt matcher · offered s) c) (fun c ss => Anti (stmts? matcher · ss) c)
    (fun c clause => Anti (catchClause? matcher · clause) c) (fun c b => Anti (binding matcher · b) c)
    (fun c ps => Anti (bindingProps matcher · ps) c) (fun c p => Anti (bindingProp matcher · p) c)
    (fun c offered e => Anti (expr? matcher · offered e) c) (fun c key => Anti (propKey matcher · key) c)
    (fun c es => Anti (elems matcher · es) c) (fun c e => Anti (elem matcher · e) c)
    (fun c s => Anti (stmt? matcher · s) c) (fun c offered ds => Anti (declarators matcher · offered ds) c)
    (fun c ps => Anti (params matcher · ps) c) (fun c ps => Anti (props matcher · ps) c)
    (fun c p => Anti (prop matcher · p) c) (fun c es => Anti (exprs matcher · es) c)
  case case36 =>
    intro credit offered span assignSpan op target value htarget hvalue credit' hle
    have htarget := htarget (erase_le_erase hle target.span)
    have hvalue := hvalue hle
    have hcredit : credit target.span ≤ credit' target.span := hle target.span
    dsimp only [stmt] at htarget hvalue ⊢
    omega
  all_goals
    intros
    intro credit' hle
    simp_all only [Anti, expr, exprs, expr?, props, prop, propKey, func, params, funcBody, binding, elems, elem,
      bindingProps, bindingProp, stmt, stmts, stmt?, stmts?, declarators, catchClause?, Nat.le_refl]
    try grind

theorem binding_anti {credit credit' : Credit} (h : credit ≤ credit') (b : Binding) :
    binding matcher credit' b ≤ binding matcher credit b :=
  -- a binding weighs what a function does that has it as its only parameter
  @expr_anti matcher _ _ h false (.func .none ⟨.none, .arrow, none, [⟨.none, b, none, false⟩], .block [], false, false⟩)

end Weight

/-! ## Tests and captures -/

section Code

variable {matcher : String} {credit : Credit}

/-- What generated code reads in many places: it weighs nothing and is no call of the matcher. -/
structure Expr.Light (matcher : String) (credit : Credit) (e : Expr) : Prop where
  weight : Weight.expr matcher credit false e = 0
  isRoot : e.isRoot matcher = false

namespace Expr.Light

variable {e : Expr}

theorem ident (span : Span) (name : String) : Light matcher credit (.ident span name) :=
  ⟨by rw [Weight.expr], rfl⟩

theorem member (h : Light matcher credit e) (span : Span) (property : String) (optional : Bool) :
    Light matcher credit (.member span e property optional) :=
  ⟨by simp [h.weight, h.isRoot], rfl⟩

theorem globalCall (h : Light matcher credit e) (style : AccessStyle) (object function : String) :
    Weight.expr matcher credit false (style.globalCall object function e) = 0 := by
  simp [AccessStyle.globalCall, h.weight, Expr.isRoot]

end Expr.Light

theorem AccessStyle.light (style : AccessStyle) :
    style.Tested (Expr.Light matcher credit) (Weight.expr matcher credit false · = 0) where
  element position h := ⟨by simp [element, h.weight], rfl⟩
  field name h := by
    unfold field
    split
    · exact h.member style.span name style.nullSafe
    · exact ⟨by simp [h.weight], rfl⟩
  literal value h := by
    cases value with
    | nan => exact h.globalCall style _ _
    | _ => simp [LiteralPattern.test, LiteralPattern.test.equals, h.weight]
  typeTag tag h := by
    unfold TypeTag.test
    split <;> simp [h.weight]
  isArray h := h.globalCall style _ _
  length least h := by rw [length, Weight.expr, (h.member _ _ _).weight, Weight.expr]

theorem Capture.weight_fields (span : Span) : ∀ {captures : List Capture},
    (∀ c ∈ captures, Weight.expr matcher credit false c.value = 0) →
    Weight.props matcher credit (captures.filterMap fun c =>
      c.name.map fun name => Property.init span (.named name) c.value false) = 0
  | [], _ => by rw [List.filterMap_nil, Weight.props]
  | ⟨name, value⟩ :: captures, h => by
    obtain ⟨hvalue, h⟩ := List.forall_mem_cons.mp h
    have hfields := Capture.weight_fields span h
    cases name with
    | none =>
      rw [List.filterMap_cons_none rfl]
      exact hfields
    | some name =>
      have hkey : Weight.propKey matcher credit (.named name) = 0 := by
        unfold PropKey.named
        split <;> simp
      simp_all

theorem Capture.weight_value? {span : Span} {captures : List Capture} {e : Expr}
    (h : Capture.value? span captures = some e)
    (hcaptures : ∀ c ∈ captures, Weight.expr matcher credit false c.value = 0) :
    Weight.expr matcher credit false e = 0 := by
  unfold Capture.value? at h
  split at h
  · cases h
  · cases h
    exact hcaptures _ List.mem_cons_self
  · cases h
    rw [Weight.expr]
    exact Capture.weight_fields span hcaptures

namespace Emission

variable {em : Emission}

theorem weight_alternatives? (hem : em.subject.Light matcher credit) {patterns : List Pattern} {e : Expr}
    (h : em.alternatives? patterns = some e) : Weight.expr matcher credit false e = 0 :=
  forall_alternatives? em.style.light (fun op _ _ hleft hright => by rw [Weight.expr, hleft, hright]) hem h

/-- A condition weighs what its guard does. -/
theorem weight_condition? (hem : em.subject.Light matcher credit) {b : Branch} {e : Expr}
    (h : em.condition? b = some e) :
    Weight.expr matcher credit false e = Weight.expr? matcher credit false b.guard := by
  have hcheck : ∀ guard : Expr, Weight.expr matcher credit false (.call em.span guard [em.subject] false)
      = Weight.expr matcher credit false guard := by
    intro guard
    rw [Weight.expr, Weight.exprs, Weight.exprs, hem.weight]
    rfl
  rcases condition?_cases h with ⟨hguard, htest⟩ | ⟨guard, hguard, rfl | ⟨test, htest, rfl⟩⟩
  · rw [weight_alternatives? hem htest, hguard, Weight.expr?]
  · rw [hguard, Weight.expr?, hcheck]
  · rw [hguard, Weight.expr?, Weight.expr, weight_alternatives? hem htest, Nat.zero_add, hcheck]

theorem weight_selection? (hem : em.subject.Light matcher credit) (b : Branch) :
    Weight.expr? matcher credit false (em.selection? b) = 0 := by
  cases h : em.selection? b with
  | none => rw [Weight.expr?]
  | some e =>
    rw [Weight.expr?]
    refine Capture.weight_value? h fun c hc => ?_
    obtain ⟨p, _, hc⟩ := List.mem_flatMap.mp hc
    exact (p.forall_captures em.style.light.toInherited hem c hc).weight

end Emission

/-! ## Handlers -/

theorem Stmt.weight_single (span : Span) (ss : List Stmt) :
    Weight.stmt matcher credit false (.single span ss) = Weight.stmts matcher credit ss := by
  rcases ss with _ | ⟨s, _ | ⟨s', ss⟩⟩ <;> simp [single]

namespace Sink

/-- The credit covers the sink's target, so that its copies weigh nothing. -/
def Covered (matcher : String) (credit : Credit) : Sink → Prop
  | ret => True
  | assign target _ => Weight.expr matcher (credit.erase target.span) false target ≤ credit target.span

variable {sink : Sink}

theorem weight_exit (h : sink.Covered matcher credit) (span : Span) (value : Option Expr) :
    Weight.stmts matcher credit (sink.exit span value) = Weight.expr? matcher credit false value := by
  cases sink with
  | ret => simp [exit]
  | assign target label => cases value <;> simp [exit, Nat.sub_eq_zero_of_le h]

/-- Redirected returns weigh what they did. -/
theorem weight_redirectAll (h : sink.Covered matcher credit) (span : Span) (ss : List Stmt) :
    Weight.stmts matcher credit (sink.redirectAll span ss) = Weight.stmts matcher credit ss := by
  apply redirectAll.induct
    (fun s => Weight.stmts matcher credit (sink.redirect span s) = Weight.stmt matcher credit false s)
    (fun ss => Weight.stmts? matcher credit (sink.redirectFinally span ss) = Weight.stmts? matcher credit ss)
    (fun ss => Weight.stmts matcher credit (sink.redirectAll span ss) = Weight.stmts matcher credit ss)
    (fun c => Weight.catchClause? matcher credit (sink.redirectCatch span c) = Weight.catchClause? matcher credit c)
    (fun s => Weight.stmt? matcher credit (sink.redirectElse span s) = Weight.stmt? matcher credit s)
  case case1 =>
    intro _ value
    rw [redirect, weight_exit h, Weight.stmt]
  case case13 =>
    rintro (_ | param) body hbody <;> simp only [redirectCatch, Weight.catchClause?, hbody]
  all_goals
    intros
    simp_all [redirect, redirectAll, redirectElse, redirectCatch, redirectFinally, Weight.stmts_append,
      Stmt.weight_single]

end Sink

/-- What the expression that a handler was read from weighs. -/
def Handler.weight (matcher : String) (credit : Credit) : Handler → Nat
  | .inline fn => Weight.func matcher credit fn
  | .callable callee => Weight.expr matcher credit false callee

def Branch.weight (matcher : String) (credit : Credit) (b : Branch) : Nat :=
  Weight.expr? matcher credit false b.guard + b.handler.weight matcher credit

theorem Handler.weight_ofExpr (e : Expr) :
    (Handler.ofExpr e).weight matcher credit = Weight.expr matcher credit false e := by
  cases e <;> rfl

namespace Emission

variable {em : Emission} {selection : Option Expr}

theorem weight_declare (span : Span) (kind : VarKind) (target : Binding) (init : Option Expr) :
    Weight.stmt matcher credit false (declare span kind target init)
      = Weight.binding matcher credit target + Weight.expr? matcher credit false init := by
  simp [declare]

theorem weight_argument? (hem : em.subject.Light matcher credit)
    (hselection : Weight.expr? matcher credit false selection = 0) (position : Nat) (target : Binding) :
    Weight.expr? matcher credit false (em.argument? selection position target) = 0 := by
  unfold argument?
  split
  · exact hselection
  · exact hem.weight
  · exact hem.weight
  · split <;> rfl

theorem weight_parameters (hem : em.subject.Light matcher credit)
    (hselection : Weight.expr? matcher credit false selection = 0) : ∀ (position : Nat) (ps : List Param),
    Weight.stmts matcher credit (em.parameters selection position ps) ≤ Weight.params matcher credit ps
  | _, [] => Nat.le_refl 0
  | position, ⟨span, target, default, rest⟩ :: ps => by
    have hps := weight_parameters hem hselection (position + 1) ps
    rw [parameters, Weight.stmts, weight_declare, weight_argument? hem hselection, Weight.params]
    dsimp only
    omega

theorem weight_body (hsink : em.sink.Covered matcher credit) (body : FuncBody) :
    Weight.stmts matcher credit (em.body body) = Weight.funcBody matcher credit body := by
  cases body with
  | expr value => rw [body, Sink.weight_exit hsink, Weight.expr?, Weight.funcBody]
  | block ss =>
    have hexit : Weight.stmts matcher credit (if listCanComplete ss then em.sink.exit em.span none else []) = 0 := by
      split
      · rw [Sink.weight_exit hsink, Weight.expr?]
      · rfl
    rw [body, Weight.stmts_append, hexit, Nat.add_zero, Weight.funcBody]
    split
    · rfl
    · rw [Sink.getD_redirectAll?]
      exact Sink.weight_redirectAll hsink em.span ss

theorem weight_invoke (hem : em.subject.Light matcher credit) (hsink : em.sink.Covered matcher credit)
    (hselection : Weight.expr? matcher credit false selection = 0) (span : Span) (targetNames : List String)
    (handler : Handler) : Weight.stmt matcher credit false (em.invoke selection (handler.plan span targetNames))
      ≤ handler.weight matcher credit := by
  have hargs : Weight.exprs matcher credit (selection.toList ++ [em.subject]) = 0 := by
    rw [Weight.exprs_append, Weight.exprs, Weight.exprs, hem.weight]
    cases selection with
    | none => rfl
    | some selection => exact hselection
  have hcalled : ∀ callee : Expr, Weight.stmt matcher credit false (em.invoke selection (.called callee))
      = Weight.expr matcher credit false callee := by
    intro callee
    rw [invoke, Weight.stmt, Sink.weight_exit hsink, Weight.expr?, Weight.expr, hargs, Nat.add_zero]
  cases handler with
  | callable callee => exact Nat.le_of_eq (hcalled callee)
  | inline fn =>
    rw [Handler.plan, Handler.weight]
    split
    · rw [hcalled, Weight.expr]
    · obtain ⟨_, _, _, params, body, _, _⟩ := fn
      have hparams := weight_parameters hem hselection 0 params
      rw [invoke, Weight.stmt, Weight.stmts_append, weight_body hsink, Weight.func]
      exact Nat.add_le_add_right hparams _

/-- The code of branches weighs no more than their guards and handlers. -/
theorem weight_branches (hem : em.subject.Light matcher credit) (hsink : em.sink.Covered matcher credit) {span : Span}
    {targetNames : List String} : ∀ {bs : List Branch} {stmts : List Stmt} {always : Bool},
      em.branches (bs.zip (bs.map (·.handler.plan span targetNames))) = .ok (stmts, always) →
      Weight.stmts matcher credit stmts ≤ (bs.map (Branch.weight matcher credit)).sum
  | [], _, _, h => by
    cases h
    exact Nat.le_refl 0
  | b :: bs, stmts, always, h => by
    have hblock := weight_invoke hem hsink (weight_selection? hem b) span targetNames b.handler
    rw [List.map_cons, List.zip_cons_cons] at h
    rw [List.map_cons, List.sum_cons, Branch.weight]
    rcases (branches_cons h).2 with ⟨_, rfl, _⟩ | ⟨test, others, htest, hothers, rfl⟩
    · rw [Weight.stmts_singleton]
      omega
    · have hbs := weight_branches hem hsink hothers
      rw [Weight.stmts, Weight.stmt, weight_condition? hem htest, Weight.stmt?]
      omega

theorem weight_noMatch (hem : em.subject.Light matcher credit) (shown error : String) :
    Weight.stmts matcher credit (em.noMatch shown error) = 0 := by
  simp [noMatch, weight_declare, hem.globalCall, hem.weight]

theorem weight_rest (hem : em.subject.Light matcher credit) (hsink : em.sink.Covered matcher credit) (m : MatchExpr)
    (shown error : String) : Weight.stmts matcher credit (em.rest m shown error)
      ≤ (m.fallback.map (Handler.weight matcher credit)).getD 0 := by
  unfold rest
  cases m.fallback with
  | some handler => simpa using weight_invoke hem hsink rfl em.span em.sink.targetNames handler
  | none =>
    cases m.exhaustive
    · exact Nat.le_of_eq (weight_noMatch hem shown error)
    · exact Nat.le_refl 0

end Emission

/-! ## Whole expressions -/

/-- What a match expression is made of, as far as its code holds it. -/
def MatchExpr.weight (matcher : String) (credit : Credit) (m : MatchExpr) : Nat :=
  Weight.expr matcher credit false m.subject + (m.branches.map (Branch.weight matcher credit)).sum
    + (m.fallback.map (Handler.weight matcher credit)).getD 0

/-- The binding that a placement's code holds. -/
def Placement.weight (matcher : String) (credit : Credit) : Placement → Nat
  | destructuring _ target => Weight.binding matcher credit target
  | _ => 0

namespace MatchExpr

variable {m : MatchExpr} {options : GenerateOptions} {cache : Option String} {em : Emission} {body : List Stmt}

theorem Assembled.light (h : m.Assembled options cache em body) : em.subject.Light matcher credit := by
  have hsubject := h.subject
  rw [hsubject]
  cases cache with
  | some name => exact .ident m.span name
  | none =>
    have hcheap := h.cheap rfl
    rw [Option.map_none, Option.getD_none]
    unfold CostModel.isCheap at hcheap
    split at hcheap
    · rename_i hident
      rw [hident]
      exact .ident _ _
    · rename_i hmember
      rw [hmember]
      exact (Expr.Light.ident _ _).member _ _ _
    · cases hcheap

theorem Assembled.weight_body (h : m.Assembled options cache em body) (hsink : em.sink.Covered matcher credit) :
    Weight.expr matcher credit false m.subject + Weight.stmts matcher credit body ≤ m.weight matcher credit := by
  obtain ⟨stmts, always, shown, error, hbranches, rfl⟩ := h.body
  have hstmts := Emission.weight_branches h.light hsink hbranches
  have hrest := Emission.weight_rest h.light hsink m shown error
  have htail : Weight.stmts matcher credit (if always then [] else em.rest m shown error)
      ≤ (m.fallback.map (Handler.weight matcher credit)).getD 0 := by
    split
    · exact Nat.zero_le _
    · exact hrest
  rw [Weight.stmts_append, MatchExpr.weight]
  omega

/-- Code that takes the place of a value holds nothing but what it was read from. -/
theorem weight_generate_value {ordinal : Nat} {code : Expr} (h : m.generate options .value ordinal = .ok (.expr code)) :
    Weight.expr matcher credit false code ≤ m.weight matcher credit := by
  obtain ⟨_, _, cache, em, body, hassembled, hsink, hcode⟩ := generate_value_shape h
  have hcovered : em.sink.Covered matcher credit := by
    rw [hsink]
    trivial
  have hbody := hassembled.weight_body hcovered
  cases hcode
  cases cache <;> simp [Emission.callAtOnce] <;> omega

theorem Assembled.weight_block (h : m.Assembled options cache em body) (hsink : em.sink.Covered matcher credit)
    (label : String) : Weight.stmt matcher credit false (m.block label cache body) ≤ m.weight matcher credit := by
  have hbody := h.weight_body hsink
  have hcached : Weight.stmts matcher credit (cache.toList.map fun name =>
      Emission.declare m.span .constVar (.ident m.span name) (some m.subject))
      ≤ Weight.expr matcher credit false m.subject := by
    cases cache with
    | none => exact Nat.zero_le _
    | some name => simp [Emission.weight_declare]
  rw [block, Weight.stmt, Weight.stmt, Weight.stmts_append]
  omega

/-- Code that takes the place of a statement holds the placement's binding besides. Copies of a target that is
    assigned are covered. -/
theorem weight_generate_statement {placement : Placement} {ordinal : Nat} {code : List Stmt}
    (hstatement : placement.isStatement = true) (h : m.generate options placement ordinal = .ok (.stmts code))
    (hcovered : ∀ target, placement = .assignment target →
      Weight.expr matcher (credit.erase target.span) false target ≤ credit target.span) :
    Weight.stmts matcher credit code ≤ placement.weight matcher credit + m.weight matcher credit := by
  obtain ⟨_, cache, em, body, target, label, temp, hassembled, hsink, htarget, hcode⟩ :=
    generate_statement_shape hstatement h
  have hname : ∀ span name, Weight.expr matcher (credit.erase span) false (.ident span name) ≤ credit span :=
    fun _ _ => Nat.zero_le _
  cases hcode
  cases placement with
  | value => cases hstatement
  | declaration kind name =>
    cases htarget
    have hblock := hassembled.weight_block (by rw [hsink]; exact hname _ _) label
    cases temp <;> simp [Emission.place, Emission.place.rebind, Emission.weight_declare, Placement.weight, hblock]
  | destructuring kind b =>
    cases temp with
    | none => cases htarget
    | some temp =>
      cases htarget
      have hblock := hassembled.weight_block (by rw [hsink]; exact hname _ _) label
      simp only [Emission.place, Emission.place.rebind, Weight.stmts, Emission.weight_declare, Weight.binding,
        Weight.expr?, Weight.expr, Placement.weight]
      omega
  | assignment target =>
    cases htarget
    have hblock := hassembled.weight_block (by rw [hsink]; exact hcovered _ rfl) label
    simpa [Emission.place, Placement.weight] using hblock

end MatchExpr

/-! ## Chains -/

/-- The calls of a chain, without the look-up on the matcher's, weigh what their arguments do. -/
theorem Chain.Spells.weight_offered {calls : List Call} {e : Expr} (h : Chain.Spells matcher calls e) :
    Weight.expr matcher credit true e = (calls.map fun c => Weight.exprs matcher credit c.args).sum := by
  induction h with
  | root span s args =>
    rw [Weight.expr, Weight.expr, List.map_singleton, List.sum_singleton, Nat.zero_add]
  | link span s property args _ ih =>
    rw [Weight.expr, Weight.expr, ih, List.map_append, List.sum_append, List.map_singleton, List.sum_singleton]
    simp

/-- The look-up on the matcher's call makes the difference. -/
theorem Chain.Spells.weight {calls : List Call} {e : Expr} (h : Chain.Spells matcher calls e) :
    Weight.expr matcher credit false e + (if e.isRoot matcher then 1 else 0) = Weight.expr matcher credit true e + 1 := by
  induction h with
  | root span s args =>
    simp only [Weight.expr, Expr.isRoot, beq_self_eq_true, if_pos]
  | @link calls object span s property args _ ih =>
    have hroot : Expr.isRoot matcher (.call span (.member s object property false) args false) = false := rfl
    rw [hroot, Weight.expr, Weight.expr, Weight.expr, Weight.expr]
    simp only [Bool.not_false, Bool.not_true, Bool.true_and, Bool.false_and]
    cases hobject : object.isRoot matcher <;> simp [hobject] at ih ⊢ <;> omega

namespace MatchNames

variable {names : MatchNames} {e : Expr}

/-- A complete chain weighs one more than its parts. -/
theorem weight_of_recognizes (h : names.recognizes e = true) :
    Weight.expr names.matcher credit true e + 1 = Weight.expr names.matcher credit false e := by
  obtain ⟨calls, hcalls⟩ := Option.isSome_iff_exists.mp h
  obtain ⟨hflatten, hends⟩ := Option.filter_eq_some_iff.mp hcalls
  have hspells := Chain.spells_of_flatten hflatten
  have hweight : Weight.expr names.matcher credit false e + (if e.isRoot names.matcher then 1 else 0)
      = Weight.expr names.matcher credit true e + 1 := hspells.weight
  have hroot : e.isRoot names.matcher = false := by
    cases hspells with
    | root => cases hends
    | link => rfl
  rw [hroot] at hweight
  exact hweight.symm

/-- A branch is read from the arguments of its clause. -/
theorem Clause.weight_le {c : Call} {b : Branch} (h : names.Clause c b) (matcher : String) (credit : Credit) :
    b.weight matcher credit ≤ Weight.exprs matcher credit c.args := by
  obtain ⟨patterns, handler, hargs, hhandler, _⟩ := h.arguments
  have hguard : Weight.exprs matcher credit b.guard.toList = Weight.expr? matcher credit false b.guard := by
    cases b.guard with
    | none => rfl
    | some guard => rfl
  rw [hargs, Weight.exprs_append, Weight.exprs_append, Weight.exprs, Weight.exprs, hguard, Branch.weight, hhandler,
    Handler.weight_ofExpr]
  omega

theorem weight_branches_le {calls : List Call} {bs : List Branch} (h : List.Forall₂ names.Clause calls bs)
    (matcher : String) (credit : Credit) : (bs.map (Branch.weight matcher credit)).sum
      ≤ (calls.map fun c => Weight.exprs matcher credit c.args).sum := by
  induction h with
  | nil => exact Nat.le_refl 0
  | cons hb _ ih =>
    rw [List.map_cons, List.sum_cons, List.map_cons, List.sum_cons]
    exact Nat.add_le_add (hb.weight_le matcher credit) ih

/-- A clause has a pattern and a handler. -/
theorem Clause.args_ne_singleton {c : Call} {b : Branch} (h : names.Clause c b) (hpatterns : b.patterns ≠ [])
    (e : Expr) : c.args ≠ [e] := by
  obtain ⟨patterns, handler, hargs, _, hforall⟩ := h.arguments
  have hlength := hforall.length_eq
  have hpos := List.length_pos_iff.mpr hpatterns
  intro heq
  have hargs' := congrArg List.length (heq.symm.trans hargs)
  simp only [List.length_append, List.length_singleton] at hargs'
  omega

theorem sum_filter_le {α : Type} (f : α → Nat) (p : α → Bool) (l : List α) :
    ((l.filter p).map f).sum ≤ (l.map f).sum := by
  induction l with
  | nil => exact Nat.le_refl 0
  | cons a l ih =>
    rw [List.filter_cons, List.map_cons, List.sum_cons]
    split
    · rw [List.map_cons, List.sum_cons]
      exact Nat.add_le_add_left ih _
    · exact Nat.le_add_left_of_le ih

theorem sum_filter_add_le {α : Type} (f : α → Nat) {p : α → Bool} {a : α} (ha : p a = false) :
    ∀ {l : List α}, a ∈ l → ((l.filter p).map f).sum + f a ≤ (l.map f).sum
  | b :: l, hmem => by
    rw [List.filter_cons, List.map_cons, List.sum_cons]
    rcases List.mem_cons.mp hmem with rfl | hmem
    · have := sum_filter_le f p l
      rw [ha, if_neg Bool.false_ne_true]
      omega
    · have := sum_filter_add_le f ha hmem
      split
      · rw [List.map_cons, List.sum_cons]
        omega
      · omega

/-- A chain holds everything that is read from it, each part once. -/
theorem weight_of_read {m : MatchExpr} (h : names.read e = .ok (some m)) :
    m.weight names.matcher credit ≤ Weight.expr names.matcher credit true e := by
  obtain ⟨root, operations, hspells, _, hroot, _, hadds⟩ := read_operations h
  obtain ⟨bs, hbs, hclauses, hcompilable⟩ := hadds.branches
  rw [List.nil_append] at hbs
  have hbranches := weight_branches_le hclauses names.matcher credit
  rw [hspells.weight_offered, List.map_cons, List.sum_cons, hroot, Weight.exprs, Weight.exprs, MatchExpr.weight, hbs]
  cases hfallback : m.fallback with
  | none =>
    have hclause := sum_filter_le (fun c => Weight.exprs names.matcher credit c.args) names.isClause operations
    rw [Option.map_none, Option.getD_none]
    omega
  | some handler =>
    obtain ⟨c, hc, e, hargs, rfl⟩ := hadds.fallback handler hfallback
    have hother : names.isClause c = false := Bool.eq_false_iff.mpr fun hclause => by
      obtain ⟨b, hb, hread⟩ := exists_of_forall₂ hclauses (List.mem_filter.mpr ⟨hc, hclause⟩)
      exact hread.args_ne_singleton (hcompilable b hb).alternatives e hargs
    have hsum := sum_filter_add_le (fun c => Weight.exprs names.matcher credit c.args) hother hc
    rw [hargs, Weight.exprs, Weight.exprs] at hsum
    rw [Option.map_some, Option.getD_some, Handler.weight_ofExpr]
    omega

end MatchNames

end Code

end MatchChain
