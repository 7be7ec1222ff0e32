import MatchChain.Proofs.Syntax.Parts
import MatchChain.Syntax.Visit

/-!
# What a visit finds

Visiting a part finds, of the expressions, exactly those that the part holds outside functions that are not
looked into.
-/

set_option autoImplicit false

namespace MatchChain

variable {c : Part}

/-- The expression, if the node is one. -/
def Visit.expr? (v : Visit) : Option Expr :=
  match v.node with
  | .expr e => some e
  | _ => none

namespace Part

/-- Whether a part is a function that is not looked into. -/
def isShut (enter : Func → Bool) : Part → Bool
  | func fn => !enter fn
  | _ => false

/-- The first part holds the second, outside functions that are not looked into. -/
inductive Holds (enter : Func → Bool) : Part → Part → Prop
  | refl (n : Part) : Holds enter n n
  | child {n c m : Part} : n.isShut enter = false → c ∈ n.children → Holds enter c m → Holds enter n m

theorem Holds.all {enter : Func → Bool} {P : Part → Prop} {n m : Part} (h : Holds enter n m) (hn : n.All P) :
    m.All P := by
  induction h with
  | refl => exact hn
  | child _ hmem _ ih => exact ih (hn.children _ hmem)

/-! ## What is visited -/

/-- What is visited of a part. -/
def visits (enter : Func → Bool) (nested : Bool) : Part → List Visit
  | expr e => Visit.ofExpr enter nested e
  | stmt s => Visit.ofStmt enter nested s
  | binding b => Visit.ofBinding enter nested b
  | param p => Visit.ofBinding enter nested p.target ++ Visit.ofExpr? enter nested p.default
  | property p => Visit.ofProps enter nested [p]
  | declarator d => Visit.ofDeclarators enter nested [d]
  | func fn => Visit.ofFunc enter fn
  | text _ | specifier _ => []

/-- The expressions among what is visited. -/
def exprs (enter : Func → Bool) (nested : Bool) (n : Part) : List Expr := (n.visits enter nested).filterMap Visit.expr?

/-- The part itself, if it is an expression. -/
def self : Part → List Expr
  | expr e => [e]
  | _ => []

/-- Whether what a part holds lies inside a function. -/
def nests (nested : Bool) : Part → Bool
  | func _ => true
  | _ => nested

variable (enter : Func → Bool) (nested : Bool)

theorem filterMap_ofExprs (es : List Expr) :
    (Visit.ofExprs enter nested es).filterMap Visit.expr? = (es.map expr).flatMap (exprs enter nested) := by
  induction es with
  | nil => rfl
  | cons e es ih => simp [Visit.ofExprs, ih, exprs, visits]

theorem filterMap_ofStmts (ss : List Stmt) :
    (Visit.ofStmts enter nested ss).filterMap Visit.expr? = (ss.map stmt).flatMap (exprs enter nested) := by
  induction ss with
  | nil => rfl
  | cons s ss ih => simp [Visit.ofStmts, ih, exprs, visits]

theorem filterMap_ofExpr? (value : Option Expr) :
    (Visit.ofExpr? enter nested value).filterMap Visit.expr? = (ofValue value).flatMap (exprs enter nested) := by
  cases value <;> simp [Visit.ofExpr?, ofValue, exprs, visits]

theorem filterMap_ofKey (key : PropKey) :
    (Visit.ofKey enter nested key).filterMap Visit.expr? = (ofKey key).flatMap (exprs enter nested) := by
  cases key <;> simp [Visit.ofKey, ofKey, exprs, visits]

theorem filterMap_ofProps (ps : List Property) :
    (Visit.ofProps enter nested ps).filterMap Visit.expr? = (ps.map property).flatMap (exprs enter nested) := by
  induction ps with
  | nil => rfl
  | cons p ps ih => cases p <;> simp [Visit.ofProps, ih, exprs, visits]

theorem filterMap_ofElems (es : List BindingElem) :
    (Visit.ofElems enter nested es).filterMap Visit.expr? = (es.flatMap ofElem).flatMap (exprs enter nested) := by
  induction es with
  | nil => rfl
  | cons e es ih => cases e <;> simp [Visit.ofElems, ofElem, filterMap_ofExpr?, ih, exprs, visits]

theorem filterMap_ofBindingProps (ps : List BindingProp) :
    (Visit.ofBindingProps enter nested ps).filterMap Visit.expr?
      = (ps.flatMap ofBindingProp).flatMap (exprs enter nested) := by
  induction ps with
  | nil => rfl
  | cons p ps ih =>
    cases p with
    | item => simp [Visit.ofBindingProps, ofBindingProp, filterMap_ofExpr?, filterMap_ofKey, ih, exprs, visits]
    -- the name that takes the rest is a part, but is not visited; it holds no expression either
    | rest => simp [Visit.ofBindingProps, ofBindingProp, ih, exprs, visits, Visit.ofBinding, Visit.expr?]

theorem filterMap_ofDeclarators (ds : List Declarator) :
    (Visit.ofDeclarators enter nested ds).filterMap Visit.expr?
      = (ds.map declarator).flatMap (exprs enter nested) := by
  induction ds with
  | nil => rfl
  | cons d ds ih =>
    obtain ⟨span, target, init⟩ := d
    simp [Visit.ofDeclarators, ih, exprs, visits]

theorem filterMap_ofParams (ps : List Param) :
    (Visit.ofParams enter ps).filterMap Visit.expr? = (ps.map param).flatMap (exprs enter true) := by
  induction ps with
  | nil => rfl
  | cons p ps ih =>
    obtain ⟨span, target, default, rest⟩ := p
    simp [Visit.ofParams, ih, exprs, visits]

theorem filterMap_ofBody (body : FuncBody) :
    (Visit.ofBody enter body).filterMap Visit.expr? = (ofBody body).flatMap (exprs enter true) := by
  cases body with
  | expr e => simp [Visit.ofBody, ofBody, exprs, visits]
  | block ss => simpa [Visit.ofBody, ofBody] using filterMap_ofStmts enter true ss

theorem filterMap_ofStmt? (s : Option Stmt) :
    (Visit.ofStmt? enter nested s).filterMap Visit.expr? = (s.toList.map stmt).flatMap (exprs enter nested) := by
  cases s <;> simp [Visit.ofStmt?, exprs, visits]

theorem filterMap_ofStmts? (ss : Option (List Stmt)) :
    (Visit.ofStmts? enter nested ss).filterMap Visit.expr? = ((ss.getD []).map stmt).flatMap (exprs enter nested) := by
  cases ss with
  | none => rfl
  | some ss => exact filterMap_ofStmts enter nested ss

theorem filterMap_ofCatch (handler : Option CatchClause) :
    (Visit.ofCatch enter nested handler).filterMap Visit.expr?
      = (handler.toList.flatMap ofCatch).flatMap (exprs enter nested) := by
  cases handler with
  | none => rfl
  | some clause =>
    obtain ⟨param, body⟩ := clause
    cases param <;> simp [Visit.ofCatch, ofCatch, filterMap_ofStmts, exprs, visits]

/-- The expressions visited of a part are itself and those of its children. -/
theorem exprs_eq (n : Part) :
    n.exprs enter nested = n.self ++ if n.isShut enter then [] else n.children.flatMap (exprs enter (n.nests nested)) := by
  cases n with
  | expr e =>
    cases e <;> simp [exprs, visits, Visit.ofExpr, self, isShut, children, ofExpr, nests, Visit.expr?,
      filterMap_ofExprs, filterMap_ofProps]
  | stmt s =>
    cases s <;> simp [exprs, visits, Visit.ofStmt, self, isShut, children, ofStmt, nests, List.filterMap_cons,
      Visit.expr?, filterMap_ofStmts, filterMap_ofExpr?, filterMap_ofDeclarators, filterMap_ofCatch,
      filterMap_ofStmt?, filterMap_ofStmts?]
  | binding b =>
    cases b <;> simp [exprs, visits, Visit.ofBinding, self, isShut, children, nests, List.filterMap_cons,
      Visit.expr?, filterMap_ofElems, filterMap_ofBindingProps]
  | param p => simp [exprs, visits, self, isShut, children, nests, filterMap_ofExpr?]
  | property p => cases p <;> simp [exprs, visits, Visit.ofProps, self, isShut, children, nests, filterMap_ofKey]
  | declarator d =>
    obtain ⟨span, target, init⟩ := d
    simp [exprs, visits, Visit.ofDeclarators, self, isShut, children, nests, filterMap_ofExpr?]
  | func fn =>
    obtain ⟨span, kind, name, params, body, isAsync, isGenerator⟩ := fn
    simp only [exprs, visits, Visit.ofFunc, self, isShut, children, nests, List.nil_append, List.flatMap_append,
      Bool.not_eq_true']
    -- what is not looked into holds nothing
    cases enter _ with
    | false => rfl
    | true => simp [filterMap_ofParams, filterMap_ofBody]
  | text t => rfl
  | specifier s => rfl

/-! ## Visited is held -/

theorem sizeOf_le_of_mem_ofValue {value : Option Expr} (h : c ∈ ofValue value) :
    sizeOf c ≤ sizeOf value := by
  cases value with
  | none => cases h
  | some e =>
    rw [List.mem_singleton.mp h]
    simp

theorem sizeOf_le_of_mem_ofKey {key : PropKey} (h : c ∈ ofKey key) : sizeOf c ≤ sizeOf key := by
  cases key with
  | computed e =>
    rw [List.mem_singleton.mp h]
    simp
  | ident | str | num => cases h

theorem sizeOf_le_of_mem_ofElem {elem : BindingElem} (h : c ∈ ofElem elem) :
    sizeOf c ≤ sizeOf elem := by
  cases elem <;> simp only [ofElem, List.mem_cons, List.not_mem_nil, or_false] at h
  all_goals grind [→ sizeOf_le_of_mem_ofValue]

theorem sizeOf_le_of_mem_ofBindingProp {p : BindingProp} (h : c ∈ ofBindingProp p) :
    sizeOf c ≤ sizeOf p + 1 := by
  cases p <;> simp only [ofBindingProp, List.mem_cons, List.mem_append, List.not_mem_nil, or_false] at h
  all_goals grind [→ sizeOf_le_of_mem_ofValue, → sizeOf_le_of_mem_ofKey]

theorem sizeOf_le_of_mem_ofCatch {clause : CatchClause} (h : c ∈ ofCatch clause) :
    sizeOf c ≤ sizeOf clause := by
  obtain ⟨param, body⟩ := clause
  simp only [ofCatch, List.mem_append, List.mem_map] at h
  cases param <;> grind [→ List.sizeOf_lt_of_mem]

theorem sizeOf_lt_of_mem_children {n c : Part} (h : c ∈ n.children) : sizeOf c < sizeOf n := by
  cases n with
  | expr e =>
    cases e <;> simp only [children, ofExpr, List.mem_map, List.mem_cons, List.mem_append, List.not_mem_nil,
      or_false] at h
    all_goals grind [→ List.sizeOf_lt_of_mem]
  | stmt s =>
    cases s <;> simp only [children, ofStmt, List.mem_map, List.mem_cons, List.mem_append, List.mem_flatMap,
      List.not_mem_nil, or_false] at h
    case tryCatch span block handler finalizer =>
      cases finalizer <;> grind [→ List.sizeOf_lt_of_mem, → sizeOf_le_of_mem_ofCatch]
    all_goals grind [→ List.sizeOf_lt_of_mem, → sizeOf_le_of_mem_ofValue]
  | binding b =>
    cases b <;> simp only [children, List.mem_flatMap, List.not_mem_nil] at h
    all_goals grind [→ List.sizeOf_lt_of_mem, → sizeOf_le_of_mem_ofElem, → sizeOf_le_of_mem_ofBindingProp]
  | param p =>
    obtain ⟨span, target, default, rest⟩ := p
    simp only [children, List.mem_cons] at h
    grind [→ sizeOf_le_of_mem_ofValue]
  | property p =>
    cases p <;> simp only [children, List.mem_cons, List.mem_append, List.not_mem_nil, or_false] at h
    all_goals grind [→ sizeOf_le_of_mem_ofKey]
  | declarator d =>
    obtain ⟨span, target, init⟩ := d
    simp only [children, List.mem_cons] at h
    grind [→ sizeOf_le_of_mem_ofValue]
  | func fn =>
    obtain ⟨_, _, _, params, body, _, _⟩ := fn
    simp only [children, List.mem_append, List.mem_map] at h
    cases body <;> grind [ofBody, → List.sizeOf_lt_of_mem]
  | text t => cases h
  | specifier s => cases h

variable {enter nested}

theorem mem_exprs_of_holds {n : Part} {e : Expr} (h : n.Holds enter (.expr e)) : ∀ nested, e ∈ n.exprs enter nested := by
  generalize hm : Part.expr e = m at h
  induction h with
  | refl n =>
    intro nested
    rw [← hm, exprs_eq]
    exact List.mem_append_left _ (List.mem_singleton_self e)
  | @child n c m hopen hc _ ih =>
    intro nested
    rw [exprs_eq, hopen]
    exact List.mem_append_right _ (List.mem_flatMap.mpr ⟨c, hc, ih hm _⟩)

theorem holds_of_mem_exprs {n : Part} {e : Expr} {nested : Bool} (h : e ∈ n.exprs enter nested) : n.Holds enter (.expr e) := by
  rw [exprs_eq] at h
  rcases List.mem_append.mp h with hself | hchild
  · cases n with
    | expr e' =>
      rw [List.mem_singleton.mp hself]
      exact .refl _
    | stmt | binding | param | property | declarator | func | text | specifier => cases hself
  · cases hopen : n.isShut enter with
    | true =>
      rw [hopen] at hchild
      cases hchild
    | false =>
      rw [hopen] at hchild
      obtain ⟨c, hc, he⟩ := List.mem_flatMap.mp hchild
      exact .child hopen hc (holds_of_mem_exprs he)
termination_by sizeOf n
decreasing_by exact sizeOf_lt_of_mem_children hc

end Part

end MatchChain
