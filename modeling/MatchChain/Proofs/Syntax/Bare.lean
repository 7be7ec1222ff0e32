import MatchChain.Syntax.Basic

/-!
# Trees without spans

Two trees are the same up to spans if they are equal once every span is replaced by the empty one. The
functions below follow the tree and do only that.
-/

set_option autoImplicit false

namespace MatchChain

/-- A function that goes through a list is a map. -/
theorem eq_map_of_rec {α β : Type} {f : α → β} {fs : List α → List β} (hnil : fs [] = [])
    (hcons : ∀ a l, fs (a :: l) = f a :: fs l) (l : List α) : fs l = l.map f := by
  induction l with
  | nil => exact hnil
  | cons a l ih => rw [hcons, ih, List.map_cons]

namespace Bare

def texts (ts : List TemplateText) : List TemplateText := ts.map fun t => ⟨t.text, .none⟩

def specifiers (ss : List ImportSpecifier) : List ImportSpecifier := ss.map fun s => { s with span := .none }

mutual

def expr : Expr → Expr
  | .ident _ name => .ident .none name
  | .str _ text => .str .none text
  | .num _ value => .num .none value
  | .bigint _ digits => .bigint .none digits
  | .bool _ value => .bool .none value
  | .null _ => .null .none
  | .thisRef _ => .thisRef .none
  | .template _ ts holes => .template .none (texts ts) (exprs holes)
  | .array _ items => .array .none (exprs items)
  | .object _ ps => .object .none (props ps)
  | .func _ fn => .func .none (func fn)
  | .unary _ op operand => .unary .none op (expr operand)
  | .binary _ op left right => .binary .none op (expr left) (expr right)
  | .conditional _ cond thenExpr elseExpr =>
    .conditional .none (expr cond) (expr thenExpr) (expr elseExpr)
  | .assign _ op target value => .assign .none op (expr target) (expr value)
  | .member _ object property optional => .member .none (expr object) property optional
  | .index _ object key optional => .index .none (expr object) (expr key) optional
  | .call _ callee args optional => .call .none (expr callee) (exprs args) optional
  | .construct _ callee args => .construct .none (expr callee) (exprs args)
  | .spread _ operand => .spread .none (expr operand)

def exprs : List Expr → List Expr
  | [] => []
  | e :: es => expr e :: exprs es

def expr? : Option Expr → Option Expr
  | none => none
  | some e => some (expr e)

def props : List Property → List Property
  | [] => []
  | p :: ps => prop p :: props ps

def prop : Property → Property
  | .init _ key value shorthand => .init .none (propKey key) (expr value) shorthand
  | .spread _ value => .spread .none (expr value)

def propKey : PropKey → PropKey
  | .ident name => .ident name
  | .str text => .str text
  | .num value => .num value
  | .computed e => .computed (expr e)

def func : Func → Func
  | ⟨_, kind, name, ps, body, isAsync, isGenerator⟩ =>
    ⟨.none, kind, name, params ps, funcBody body, isAsync, isGenerator⟩

def params : List Param → List Param
  | [] => []
  | p :: ps => param p :: params ps

def param : Param → Param
  | ⟨_, target, default, rest⟩ => ⟨.none, binding target, expr? default, rest⟩

def funcBody : FuncBody → FuncBody
  | .expr value => .expr (expr value)
  | .block body => .block (stmts body)

def binding : Binding → Binding
  | .ident _ name => .ident .none name
  | .array _ es => .array .none (elems es)
  | .object _ ps => .object .none (bindingProps ps)

def elems : List BindingElem → List BindingElem
  | [] => []
  | e :: es => elem e :: elems es

def elem : BindingElem → BindingElem
  | .hole => .hole
  | .item target default => .item (binding target) (expr? default)
  | .rest target => .rest (binding target)

def bindingProps : List BindingProp → List BindingProp
  | [] => []
  | p :: ps => bindingProp p :: bindingProps ps

def bindingProp : BindingProp → BindingProp
  | .item key value default shorthand =>
    .item (propKey key) (binding value) (expr? default) shorthand
  | .rest _ name => .rest .none name

def stmt : Stmt → Stmt
  | .expr _ value => .expr .none (expr value)
  | .varDecl _ kind ds => .varDecl .none kind (declarators ds)
  | .funcDecl _ fn => .funcDecl .none (func fn)
  | .ret _ value => .ret .none (expr? value)
  | .ifElse _ cond thenBranch elseBranch =>
    .ifElse .none (expr cond) (stmt thenBranch) (stmt? elseBranch)
  | .block _ body => .block .none (stmts body)
  | .labeled _ label body => .labeled .none label (stmt body)
  | .breakTo _ label => .breakTo .none label
  | .continueTo _ label => .continueTo .none label
  | .throwing _ value => .throwing .none (expr value)
  | .tryCatch _ body handler finalizer =>
    .tryCatch .none (stmts body) (catchClause? handler) (stmts? finalizer)
  | .whileLoop _ cond body => .whileLoop .none (expr cond) (stmt body)
  | .importDecl _ ss source => .importDecl .none (specifiers ss) source
  | .empty _ => .empty .none

def stmts : List Stmt → List Stmt
  | [] => []
  | s :: ss => stmt s :: stmts ss

def stmt? : Option Stmt → Option Stmt
  | none => none
  | some s => some (stmt s)

def stmts? : Option (List Stmt) → Option (List Stmt)
  | none => none
  | some ss => some (stmts ss)

def catchClause? : Option CatchClause → Option CatchClause
  | none => none
  | some ⟨none, body⟩ => some ⟨none, stmts body⟩
  | some ⟨some param, body⟩ => some ⟨some (binding param), stmts body⟩

def declarators : List Declarator → List Declarator
  | [] => []
  | d :: ds => declarator d :: declarators ds

def declarator : Declarator → Declarator
  | ⟨_, target, init⟩ => ⟨.none, binding target, expr? init⟩

end

theorem exprs_eq_map (es : List Expr) : exprs es = es.map expr := eq_map_of_rec rfl (fun _ _ => rfl) es

theorem props_eq_map (ps : List Property) : props ps = ps.map prop := eq_map_of_rec rfl (fun _ _ => rfl) ps

theorem params_eq_map (ps : List Param) : params ps = ps.map param := eq_map_of_rec rfl (fun _ _ => rfl) ps

theorem elems_eq_map (es : List BindingElem) : elems es = es.map elem := eq_map_of_rec rfl (fun _ _ => rfl) es

theorem bindingProps_eq_map (ps : List BindingProp) : bindingProps ps = ps.map bindingProp :=
  eq_map_of_rec rfl (fun _ _ => rfl) ps

end Bare

/-- An expression without its spans. -/
def Expr.bare (e : Expr) : Expr := Bare.expr e

end MatchChain
