import MatchChain.Syntax.Visit

/-!
# The names that code uses

`Within names` says of code that it uses and binds names of a set only, in the functions in it too.
Code that is within a set of names cannot tell apart two machines that agree on these names.
-/

set_option autoImplicit false

namespace MatchChain

variable {e : Expr} {es : List Expr} {body : List Stmt} {optional : Bool}

namespace Visit

/-- The names that a node itself uses or binds. -/
def names (v : Visit) : List String :=
  match v.node with
  | .expr (.ident _ name) => [name]
  | .binding (.ident _ name) => [name]
  | .binding (.object _ props) => props.filterMap fun
      | .rest _ name => some name
      | .item .. => none
  | .stmt (.funcDecl _ fn) => fn.name.toList
  | _ => []

/-- All functions are looked into. -/
def everywhere : Func → Bool := fun _ => true

/-- What is visited uses names of a set only. -/
def Within (names : String → Prop) (vs : List Visit) : Prop := ∀ v ∈ vs, ∀ x ∈ v.names, names x

variable {names : String → Prop}

@[simp] theorem within_nil : Within names [] := nofun

@[simp] theorem within_cons {v : Visit} {vs : List Visit} :
    Within names (v :: vs) ↔ (∀ x ∈ v.names, names x) ∧ Within names vs := List.forall_mem_cons

@[simp] theorem within_append {vs us : List Visit} :
    Within names (vs ++ us) ↔ Within names vs ∧ Within names us := List.forall_mem_append

/-- A node that has no name itself adds nothing. -/
theorem within_nameless {v : Visit} {vs : List Visit} (h : v.names = []) :
    Within names (v :: vs) ↔ Within names vs := by
  simp [h]

end Visit

open Visit

def Expr.Within (names : String → Prop) (e : Expr) : Prop :=
  Visit.Within names (ofExpr everywhere true e)

def Func.Within (names : String → Prop) (fn : Func) : Prop :=
  Visit.Within names (ofFunc everywhere fn)

def FuncBody.Within (names : String → Prop) (body : FuncBody) : Prop :=
  Visit.Within names (ofBody everywhere body)

def PropKey.Within (names : String → Prop) (key : PropKey) : Prop :=
  Visit.Within names (ofKey everywhere true key)

def Binding.Within (names : String → Prop) (target : Binding) : Prop :=
  Visit.Within names (ofBinding everywhere true target)

def Stmt.Within (names : String → Prop) (s : Stmt) : Prop :=
  Visit.Within names (ofStmt everywhere true s)

/-- A default, an initial value or another part that may be missing. -/
def OptionalWithin (names : String → Prop) (e : Option Expr) : Prop := ∀ v ∈ e, v.Within names

def Property.Within (names : String → Prop) : Property → Prop
  | .init _ key value _ => key.Within names ∧ value.Within names
  | .spread _ value => value.Within names

def Param.Within (names : String → Prop) (p : Param) : Prop :=
  p.target.Within names ∧ OptionalWithin names p.default

def BindingElem.Within (names : String → Prop) : BindingElem → Prop
  | .hole => True
  | .item target default => target.Within names ∧ OptionalWithin names default
  | .rest target => target.Within names

def BindingProp.Within (names : String → Prop) : BindingProp → Prop
  | .item key value default _ =>
    key.Within names ∧ value.Within names ∧ OptionalWithin names default
  | .rest _ name => names name

def Declarator.Within (names : String → Prop) (d : Declarator) : Prop :=
  d.target.Within names ∧ OptionalWithin names d.init

def CatchClause.Within (names : String → Prop) (c : CatchClause) : Prop :=
  (∀ target ∈ c.param, target.Within names) ∧ ∀ s ∈ c.body, s.Within names

variable {names : String → Prop}

/-! ## Lists -/

theorem within_ofExprs :
    Visit.Within names (ofExprs everywhere true es) ↔ ∀ e ∈ es, e.Within names := by
  induction es with
  | nil => simp [ofExprs]
  | cons e es ih => simp [ofExprs, ih, Expr.Within]

theorem within_ofExpr? {e : Option Expr} :
    Visit.Within names (ofExpr? everywhere true e) ↔ OptionalWithin names e := by
  cases e <;> simp [ofExpr?, OptionalWithin, Expr.Within]

theorem within_ofProps {ps : List Property} :
    Visit.Within names (ofProps everywhere true ps) ↔ ∀ p ∈ ps, p.Within names := by
  induction ps with
  | nil => simp [ofProps]
  | cons p ps ih =>
    cases p <;> simp [ofProps, ih, Property.Within, Expr.Within, PropKey.Within, and_assoc]

theorem within_ofParams {ps : List Param} :
    Visit.Within names (ofParams everywhere ps) ↔ ∀ p ∈ ps, p.Within names := by
  induction ps with
  | nil => simp [ofParams]
  | cons p ps ih =>
    obtain ⟨span, target, default, rest⟩ := p
    simp [ofParams, ih, Param.Within, Binding.Within, within_ofExpr?, and_assoc]

theorem within_ofElems {es : List BindingElem} :
    Visit.Within names (ofElems everywhere true es) ↔ ∀ e ∈ es, e.Within names := by
  induction es with
  | nil => simp [ofElems]
  | cons e es ih =>
    cases e <;>
      simp [ofElems, ih, BindingElem.Within, Binding.Within, within_ofExpr?, and_assoc]

theorem within_ofStmts {ss : List Stmt} :
    Visit.Within names (ofStmts everywhere true ss) ↔ ∀ s ∈ ss, s.Within names := by
  induction ss with
  | nil => simp [ofStmts]
  | cons s ss ih => simp [ofStmts, ih, Stmt.Within]

theorem within_ofStmt? {s : Option Stmt} :
    Visit.Within names (ofStmt? everywhere true s) ↔ ∀ t ∈ s, t.Within names := by
  cases s <;> simp [ofStmt?, Stmt.Within]

theorem within_ofStmts? {ss : Option (List Stmt)} :
    Visit.Within names (ofStmts? everywhere true ss) ↔ ∀ b ∈ ss, ∀ s ∈ b, s.Within names := by
  cases ss <;> simp [ofStmts?, within_ofStmts]

theorem within_ofDeclarators {ds : List Declarator} :
    Visit.Within names (ofDeclarators everywhere true ds) ↔ ∀ d ∈ ds, d.Within names := by
  induction ds with
  | nil => simp [ofDeclarators]
  | cons d ds ih =>
    obtain ⟨span, target, init⟩ := d
    simp [ofDeclarators, ih, Declarator.Within, Binding.Within, within_ofExpr?, and_assoc]

theorem within_ofCatch {c : Option CatchClause} :
    Visit.Within names (ofCatch everywhere true c) ↔ ∀ h ∈ c, h.Within names := by
  cases c with
  | none => simp [ofCatch]
  | some c =>
    obtain ⟨param, body⟩ := c
    cases param <;> simp [ofCatch, CatchClause.Within, within_ofStmts, Binding.Within]

/-- The names that an object pattern binds to the rest stand in its own node. -/
theorem within_ofBindingProps {span : Span} {ps : List BindingProp}
    (hrest : ∀ x ∈ Visit.names ⟨.binding (.object span ps), true⟩, names x)
    (h : Visit.Within names (ofBindingProps everywhere true ps)) : ∀ p ∈ ps, p.Within names := by
  induction ps with
  | nil => exact nofun
  | cons p ps ih =>
    cases p with
    | item key value default shorthand =>
      simp only [ofBindingProps, within_append, within_ofExpr?] at h
      have hps := ih (fun x hx => hrest x (by simpa [Visit.names] using hx)) h.2
      exact List.forall_mem_cons.mpr ⟨⟨h.1.1.1, h.1.1.2, h.1.2⟩, hps⟩
    | rest restSpan name =>
      have hps := ih (fun x hx => hrest x (by simp [Visit.names] at hx ⊢; exact .inr hx)) h
      exact List.forall_mem_cons.mpr ⟨hrest name (by simp [Visit.names]), hps⟩

/-! ## Nodes -/

theorem Func.within_iff {fn : Func} :
    fn.Within names ↔ (∀ p ∈ fn.params, p.Within names) ∧ fn.body.Within names := by
  obtain ⟨span, kind, name, params, body, isAsync, isGenerator⟩ := fn
  simp [Func.Within, ofFunc, everywhere, FuncBody.Within, ← within_ofParams]

@[simp] theorem FuncBody.within_expr :
    (FuncBody.expr e).Within names ↔ e.Within names := Iff.rfl

@[simp] theorem FuncBody.within_block :
    (FuncBody.block body).Within names ↔ ∀ s ∈ body, s.Within names := within_ofStmts

@[simp] theorem PropKey.within_computed :
    (PropKey.computed e).Within names ↔ e.Within names := Iff.rfl

namespace Expr

variable {span : Span}

@[simp] theorem within_ident {x : String} : (ident span x).Within names ↔ names x :=
  within_cons.trans (by simp [Visit.names])

@[simp] theorem within_template {texts : List TemplateText} {holes : List Expr} :
    (template span texts holes).Within names ↔ ∀ e ∈ holes, e.Within names :=
  (within_nameless rfl).trans within_ofExprs

@[simp] theorem within_array :
    (array span es).Within names ↔ ∀ e ∈ es, e.Within names :=
  (within_nameless rfl).trans within_ofExprs

@[simp] theorem within_object {ps : List Property} :
    (object span ps).Within names ↔ ∀ p ∈ ps, p.Within names :=
  (within_nameless rfl).trans within_ofProps

@[simp] theorem within_func {fn : Func} : (func span fn).Within names ↔ fn.Within names :=
  within_nameless rfl

@[simp] theorem within_unary {op : UnaryOp} :
    (unary span op e).Within names ↔ e.Within names :=
  within_nameless rfl

@[simp] theorem within_binary {op : BinaryOp} {a b : Expr} :
    (binary span op a b).Within names ↔ a.Within names ∧ b.Within names :=
  (within_nameless rfl).trans within_append

@[simp] theorem within_conditional {a b c : Expr} :
    (conditional span a b c).Within names ↔ a.Within names ∧ b.Within names ∧ c.Within names :=
  (within_nameless rfl).trans
    (within_append.trans ((and_congr_left' within_append).trans and_assoc))

@[simp] theorem within_assign {op : AssignOp} {target value : Expr} :
    (assign span op target value).Within names ↔ target.Within names ∧ value.Within names :=
  (within_nameless rfl).trans within_append

@[simp] theorem within_member {property : String} :
    (member span e property optional).Within names ↔ e.Within names :=
  within_nameless rfl

@[simp] theorem within_index {e key : Expr} :
    (index span e key optional).Within names ↔ e.Within names ∧ key.Within names :=
  (within_nameless rfl).trans within_append

@[simp] theorem within_call {f : Expr} :
    (call span f es optional).Within names ↔ f.Within names ∧ ∀ e ∈ es, e.Within names :=
  (within_nameless rfl).trans (within_append.trans (and_congr_right' within_ofExprs))

@[simp] theorem within_construct {f : Expr} :
    (construct span f es).Within names ↔ f.Within names ∧ ∀ e ∈ es, e.Within names :=
  (within_nameless rfl).trans (within_append.trans (and_congr_right' within_ofExprs))

@[simp] theorem within_spread : (spread span e).Within names ↔ e.Within names :=
  within_nameless rfl

end Expr

namespace Binding

variable {span : Span}

@[simp] theorem within_ident {x : String} : (ident span x).Within names ↔ names x :=
  within_cons.trans (by simp [Visit.names])

@[simp] theorem within_array {es : List BindingElem} :
    (array span es).Within names ↔ ∀ e ∈ es, e.Within names :=
  (within_nameless rfl).trans within_ofElems

theorem Within.of_object {ps : List BindingProp} (h : (object span ps).Within names) :
    ∀ p ∈ ps, p.Within names :=
  have hparts := within_cons.mp h
  within_ofBindingProps hparts.1 hparts.2

end Binding

namespace Stmt

variable {span : Span}

@[simp] theorem within_expr : (expr span e).Within names ↔ e.Within names :=
  within_nameless rfl

@[simp] theorem within_varDecl {kind : VarKind} {ds : List Declarator} :
    (varDecl span kind ds).Within names ↔ ∀ d ∈ ds, d.Within names :=
  (within_nameless rfl).trans within_ofDeclarators

@[simp] theorem within_ret {e : Option Expr} :
    (ret span e).Within names ↔ OptionalWithin names e :=
  (within_nameless rfl).trans within_ofExpr?

@[simp] theorem within_ifElse {cond : Expr} {a : Stmt} {b : Option Stmt} :
    (ifElse span cond a b).Within names ↔
      cond.Within names ∧ a.Within names ∧ ∀ s ∈ b, s.Within names :=
  (within_nameless rfl).trans
    (within_append.trans ((and_congr within_append within_ofStmt?).trans and_assoc))

@[simp] theorem within_block :
    (block span body).Within names ↔ ∀ s ∈ body, s.Within names :=
  (within_nameless rfl).trans within_ofStmts

@[simp] theorem within_labeled {label : String} {body : Stmt} :
    (labeled span label body).Within names ↔ body.Within names :=
  within_nameless rfl

@[simp] theorem within_throwing :
    (throwing span e).Within names ↔ e.Within names :=
  within_nameless rfl

@[simp] theorem within_tryCatch {handler : Option CatchClause}
    {finalizer : Option (List Stmt)} : (tryCatch span body handler finalizer).Within names ↔
      (∀ s ∈ body, s.Within names) ∧ (∀ h ∈ handler, h.Within names) ∧
        ∀ b ∈ finalizer, ∀ s ∈ b, s.Within names :=
  (within_nameless rfl).trans (within_append.trans ((and_congr (within_append.trans
    (and_congr within_ofStmts within_ofCatch)) within_ofStmts?).trans and_assoc))

@[simp] theorem within_whileLoop {cond : Expr} {body : Stmt} :
    (whileLoop span cond body).Within names ↔ cond.Within names ∧ body.Within names :=
  (within_nameless rfl).trans within_append

end Stmt

end MatchChain
