import MatchChain.Pass.Walk
import MatchChain.Proofs.Pass.Compile

/-!
# Trees that a walk leaves as they are

A tree is settled if no call that a walk would offer can be compiled. The calls of a chain that cannot be
compiled are not offered again, so a settled tree may hold chains that could be compiled alone inside such
a chain. Where no chain failed there are no complete chains at all.
-/

set_option autoImplicit false

namespace MatchChain

variable {s : Stmt} {placement : Placement}

/-! ## Statements that offer a call -/

namespace Stmt

variable {span assignSpan : Span} {op : AssignOp} {target value : Expr} {kind : VarKind}

theorem callSite?_assign : (Stmt.expr span (.assign assignSpan op target value)).callSite?
    = if op = .assign ∧ value.isCall = true then some (value, .assignment target) else none := by
  cases hcall : value.isCall <;> cases op <;> simp [callSite?, site?, hcall, Option.filter, Placement.isStatement]

theorem callSite?_varDecl (d : Declarator) : (Stmt.varDecl span kind [d]).callSite?
    = (d.init.filter Expr.isCall).map fun value => (value, .ofDeclarator kind d) := by
  have hstatement : (Placement.ofDeclarator kind d).isStatement = true := by
    unfold Placement.ofDeclarator
    split <;> rfl
  cases hinit : d.init with
  | none => simp [callSite?, site?, hinit]
  | some value => cases hcall : value.isCall <;> simp [callSite?, site?, hinit, hcall, hstatement, Option.filter]

/-- The call that a statement offers for compilation in its place. -/
def offer? (s : Stmt) : Option Expr := s.callSite?.map (·.1)

/-- The statement offers the call for compilation in this place. -/
inductive Offers (call : Expr) : Stmt → Placement → Prop
  | declarator (span declSpan : Span) (kind : VarKind) (target : Binding) : Offers call
      (.varDecl span kind [⟨declSpan, target, some call⟩]) (.ofDeclarator kind ⟨declSpan, target, some call⟩)
  | assignment (span assignSpan : Span) (target : Expr) :
      Offers call (.expr span (.assign assignSpan .assign target call)) (.assignment target)

theorem offers_of_callSite? {call : Expr} (h : s.callSite? = some (call, placement)) : Offers call s placement := by
  unfold callSite? at h
  split at h
  · rename_i span kind d
    obtain ⟨value, hvalue, heq⟩ := Option.map_eq_some_iff.mp (Option.filter_eq_some_iff.mp h).1
    obtain ⟨declSpan, target, init⟩ := d
    cases heq
    cases hvalue
    exact .declarator span declSpan kind target
  · rename_i span assignSpan op target value
    obtain ⟨hsite, hcall⟩ := Option.filter_eq_some_iff.mp h
    cases op <;> cases hsite <;> first | exact .assignment span assignSpan target | cases hcall
  · cases h

theorem isStatement_of_callSite? {call : Expr}
    (h : s.callSite? = some (call, placement)) : call.isCall = true ∧ placement.isStatement = true := by
  unfold callSite? at h
  split at h
  · simpa using (Option.filter_eq_some_iff.mp h).2
  · simpa using (Option.filter_eq_some_iff.mp h).2
  · cases h

end Stmt

/-! ## Settled trees -/

namespace Settled

variable (names : MatchNames) (fails : Bool)

/-- The call that a statement offers is not compiled. Only if some chain may have failed, it is a
    chain. -/
def Site (s : Stmt) : Prop :=
  ∀ call, s.offer? = some call → names.compiles true call = false ∧ (fails = true ∨ names.recognizes call = false)

/-- Whether the statement has offered its call as a chain. -/
def hasOffered (s : Stmt) : Bool := s.offer?.any names.recognizes

mutual

/-- No call in an expression is compiled. If the expression is a part of a chain that was `offered`, its
    own calls are not offered again. -/
def expr (offered : Bool) : Expr → Prop
  | .ident .. | .str .. | .num .. | .bigint .. | .bool .. | .null _ | .thisRef _ => True
  | .template _ _ holes => exprs holes
  | .array _ items => exprs items
  | .object _ ps => props ps
  | .func _ fn => func fn
  | .unary _ _ operand => expr false operand
  | .binary _ _ left right => expr false left ∧ expr false right
  | .conditional _ cond thenExpr elseExpr => expr false cond ∧ expr false thenExpr ∧ expr false elseExpr
  | .assign _ _ target value => expr false target ∧ expr false value
  | .member _ object _ _ => expr offered object
  | .index _ object key _ => expr false object ∧ expr false key
  | e@(.call _ callee args _) =>
    (offered = true ∨ names.compiles false e = false) ∧ (fails = true ∨ names.recognizes e = false) ∧
      expr (offered || names.recognizes e) callee ∧ exprs args
  | .construct _ callee args => expr false callee ∧ exprs args
  | .spread _ operand => expr false operand

def exprs : List Expr → Prop
  | [] => True
  | e :: es => expr false e ∧ exprs es

def expr? (offered : Bool) : Option Expr → Prop
  | none => True
  | some e => expr offered e

def props : List Property → Prop
  | [] => True
  | p :: ps => prop p ∧ props ps

def prop : Property → Prop
  | .init _ key value _ => propKey key ∧ expr false value
  | .spread _ value => expr false value

def propKey : PropKey → Prop
  | .computed e => expr false e
  | _ => True

def func : Func → Prop
  | ⟨_, _, _, ps, body, _, _⟩ => params ps ∧ funcBody body

def params : List Param → Prop
  | [] => True
  | ⟨_, target, default, _⟩ :: ps => (binding target ∧ expr? false default) ∧ params ps

def funcBody : FuncBody → Prop
  | .expr e => expr false e
  | .block body => stmts body

def binding : Binding → Prop
  | .ident .. => True
  | .array _ es => elems es
  | .object _ ps => bindingProps ps

def elems : List BindingElem → Prop
  | [] => True
  | e :: es => elem e ∧ elems es

def elem : BindingElem → Prop
  | .hole => True
  | .item target default => binding target ∧ expr? false default
  | .rest target => binding target

def bindingProps : List BindingProp → Prop
  | [] => True
  | p :: ps => bindingProp p ∧ bindingProps ps

def bindingProp : BindingProp → Prop
  | .item key value default _ => propKey key ∧ binding value ∧ expr? false default
  | .rest .. => True

def stmt : Stmt → Prop
  | s@(.expr _ (.assign _ _ target value)) =>
    Site names fails s ∧ expr false target ∧ expr (hasOffered names s) value
  | .expr _ e => expr false e
  | s@(.varDecl _ _ ds) => Site names fails s ∧ declarators (hasOffered names s) ds
  | .funcDecl _ fn => func fn
  | .ret _ value => expr? false value
  | .ifElse _ cond thenBranch elseBranch => expr false cond ∧ stmt thenBranch ∧ stmt? elseBranch
  | .block _ body => stmts body
  | .labeled _ _ body => stmt body
  | .throwing _ value => expr false value
  | .tryCatch _ body handler finalizer => stmts body ∧ catchClause? handler ∧ stmts? finalizer
  | .whileLoop _ cond body => expr false cond ∧ stmt body
  | .breakTo .. | .continueTo .. | .importDecl .. | .empty .. => True

def stmts : List Stmt → Prop
  | [] => True
  | s :: ss => stmt s ∧ stmts ss

def stmt? : Option Stmt → Prop
  | none => True
  | some s => stmt s

def stmts? : Option (List Stmt) → Prop
  | none => True
  | some ss => stmts ss

def declarators (offered : Bool) : List Declarator → Prop
  | [] => True
  | ⟨_, target, init⟩ :: ds => (binding target ∧ expr? offered init) ∧ declarators offered ds

def catchClause? : Option CatchClause → Prop
  | none => True
  | some ⟨none, body⟩ => stmts body
  | some ⟨some param, body⟩ => binding param ∧ stmts body

end

/-! ### Lists -/

variable {names fails}

theorem params_iff {ps : List Param} : params names fails ps
    ↔ ∀ p ∈ ps, binding names fails p.target ∧ expr? names fails false p.default := by
  induction ps with
  | nil => simp [params]
  | cons p ps ih =>
    obtain ⟨span, target, default, rest⟩ := p
    rw [params, ih, List.forall_mem_cons]

theorem elems_iff {es : List BindingElem} : elems names fails es ↔ ∀ e ∈ es, elem names fails e := by
  induction es with
  | nil => simp [elems]
  | cons e es ih => rw [elems, ih, List.forall_mem_cons]

theorem bindingProps_iff {ps : List BindingProp} :
    bindingProps names fails ps ↔ ∀ p ∈ ps, bindingProp names fails p := by
  induction ps with
  | nil => simp [bindingProps]
  | cons p ps ih => rw [bindingProps, ih, List.forall_mem_cons]

theorem stmts_iff {ss : List Stmt} : stmts names fails ss ↔ ∀ s ∈ ss, stmt names fails s := by
  induction ss with
  | nil => simp [stmts]
  | cons s ss ih => rw [stmts, ih, List.forall_mem_cons]

/-! ### Parts -/

variable (names fails)

/-- The parts of an expression are settled, where the expression itself has been offered or need not
    be. -/
def Parts (offered : Bool) : Expr → Prop
  | .call _ callee args _ => expr names fails offered callee ∧ exprs names fails args
  | e => expr names fails offered e

variable {names fails}

theorem parts_of_not_isCall {offered : Bool} {e : Expr} (h : e.isCall = false) :
    Parts names fails offered e ↔ expr names fails offered e := by
  cases e with
  | call => cases h
  | _ => exact Iff.rfl

theorem parts_of_expr {offered : Bool} {e : Expr} (h : expr names fails offered e) :
    Parts names fails (offered || names.recognizes e) e := by
  cases hcall : e.isCall with
  | false =>
    rw [MatchNames.recognizes_of_not_isCall hcall, Bool.or_false, parts_of_not_isCall hcall]
    exact h
  | true =>
    cases e with
    | call span callee args optional =>
      rw [expr] at h
      exact h.2.2
    | _ => cases hcall

theorem hasOffered_of_callSite? {call : Expr}
    (h : s.callSite? = some (call, placement)) : hasOffered names s = names.recognizes call := by
  rw [hasOffered, Stmt.offer?, h]
  rfl

theorem hasOffered_of_callSite?_eq_none (h : s.callSite? = none) : hasOffered names s = false := by
  rw [hasOffered, Stmt.offer?, h]
  rfl

variable (names fails)

/-- The parts of a statement are settled, where its call has been offered or need not be. -/
def StmtParts (offered : Bool) : Stmt → Prop
  | .expr _ (.assign _ _ target value) => expr names fails false target ∧ expr names fails offered value
  | .varDecl _ _ ds => declarators names fails offered ds
  | s => stmt names fails s

variable {names fails}

theorem stmtParts_of_stmt (h : stmt names fails s) : StmtParts names fails (hasOffered names s) s := by
  cases s with
  | expr span e => cases e <;> first | exact h.2 | exact h
  | varDecl => exact h.2
  | _ => exact h

/-- A settled statement's call is not compiled. -/
theorem compiles_of_callSite? {call : Expr} (hs : stmt names fails s)
    (h : s.callSite? = some (call, placement)) : names.compiles true call = false := by
  have hoffer : s.offer? = some call := by rw [Stmt.offer?, h]; rfl
  unfold Stmt.callSite? at h
  split at h
  · rw [stmt] at hs
    exact (hs.1 call hoffer).1
  · rw [stmt] at hs
    exact (hs.1 call hoffer).1
  · cases h

/-! ### No chain is left

Where no chain failed, no call anywhere in a settled tree is a chain. -/

end Settled

/-- A visit to anything but a complete chain. -/
def Visit.IsNoChain (names : MatchNames) (v : Visit) : Prop :=
  ∀ e, v.node = .expr e → names.recognizes e = false

/-- No visit is to a complete chain. -/
def NoChains (names : MatchNames) (vs : List Visit) : Prop := ∀ v ∈ vs, v.IsNoChain names

namespace NoChains

variable {names : MatchNames} {vs vs' : List Visit} {nested : Bool}

@[simp] theorem nil : NoChains names [] := nofun

@[simp] theorem append_iff : NoChains names (vs ++ vs') ↔ NoChains names vs ∧ NoChains names vs' :=
  List.forall_mem_append

@[simp] theorem expr_iff {e : Expr} :
    NoChains names (⟨.expr e, nested⟩ :: vs) ↔ names.recognizes e = false ∧ NoChains names vs := by
  simp [NoChains, Visit.IsNoChain]

@[simp] theorem stmt_iff : NoChains names (⟨.stmt s, nested⟩ :: vs) ↔ NoChains names vs := by
  simp [NoChains, Visit.IsNoChain]

@[simp] theorem binding_iff {b : Binding} : NoChains names (⟨.binding b, nested⟩ :: vs) ↔ NoChains names vs := by
  simp [NoChains, Visit.IsNoChain]

end NoChains

namespace Settled

theorem stmts_visits {names : MatchNames} {enter : Func → Bool} {nested : Bool} (ss : List Stmt)
    (h : stmts names false ss) : NoChains names (Visit.ofStmts enter nested ss) := by
  suffices hall : ∀ ss, stmts names false ss → ∀ {nested}, NoChains names (Visit.ofStmts enter nested ss) from hall ss h
  apply stmts.induct names
    (fun offered e => expr names false offered e → ∀ {nested}, NoChains names (Visit.ofExpr enter nested e))
    (fun fn => func names false fn → NoChains names (Visit.ofFunc enter fn))
    (fun body => funcBody names false body → NoChains names (Visit.ofBody enter body))
    (fun ss => stmts names false ss → ∀ {nested}, NoChains names (Visit.ofStmts enter nested ss))
    (fun s => stmt names false s → ∀ {nested}, NoChains names (Visit.ofStmt enter nested s))
    (fun ss => stmts? names false ss → ∀ {nested}, NoChains names (Visit.ofStmts? enter nested ss))
    (fun c => catchClause? names false c → ∀ {nested}, NoChains names (Visit.ofCatch enter nested c))
    (fun b => binding names false b → ∀ {nested}, NoChains names (Visit.ofBinding enter nested b))
    (fun ps => bindingProps names false ps → ∀ {nested}, NoChains names (Visit.ofBindingProps enter nested ps))
    (fun p => bindingProp names false p → ∀ {nested ps}, NoChains names (Visit.ofBindingProps enter nested ps) →
      NoChains names (Visit.ofBindingProps enter nested (p :: ps)))
    (fun offered e => expr? names false offered e → ∀ {nested}, NoChains names (Visit.ofExpr? enter nested e))
    (fun key => propKey names false key → ∀ {nested}, NoChains names (Visit.ofKey enter nested key))
    (fun es => elems names false es → ∀ {nested}, NoChains names (Visit.ofElems enter nested es))
    (fun e => elem names false e → ∀ {nested es}, NoChains names (Visit.ofElems enter nested es) →
      NoChains names (Visit.ofElems enter nested (e :: es)))
    (fun s => stmt? names false s → ∀ {nested}, NoChains names (Visit.ofStmt? enter nested s))
    (fun offered ds => declarators names false offered ds →
      ∀ {nested}, NoChains names (Visit.ofDeclarators enter nested ds))
    (fun ps => params names false ps → NoChains names (Visit.ofParams enter ps))
    (fun ps => props names false ps → ∀ {nested}, NoChains names (Visit.ofProps enter nested ps))
    (fun p => prop names false p → ∀ {nested ps}, NoChains names (Visit.ofProps enter nested ps) →
      NoChains names (Visit.ofProps enter nested (p :: ps)))
    (fun es => exprs names false es → ∀ {nested}, NoChains names (Visit.ofExprs enter nested es))
  all_goals
    intros
    grind [expr, exprs, expr?, props, prop, propKey, func, params, funcBody, binding, elems, elem, bindingProps,
      bindingProp, stmt, stmts, stmt?, stmts?, declarators, catchClause?, Visit.ofExpr, Visit.ofExprs, Visit.ofExpr?,
      Visit.ofProps, Visit.ofKey, Visit.ofFunc, Visit.ofParams, Visit.ofBody, Visit.ofBinding, Visit.ofElems,
      Visit.ofBindingProps, Visit.ofStmt, Visit.ofStmts, Visit.ofStmt?, Visit.ofStmts?, Visit.ofDeclarators,
      Visit.ofCatch, NoChains.nil, NoChains.append_iff, NoChains.expr_iff, NoChains.stmt_iff, NoChains.binding_iff,
      MatchNames.recognizes_of_not_isCall, Expr.isCall]

end Settled

end MatchChain
