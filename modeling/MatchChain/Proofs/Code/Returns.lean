import MatchChain.Code.Handler
import MatchChain.Proofs.Code.Redirect

/-!
# The returns of a body

The own statements of a body are those outside the functions in it. Redirecting the returns of a body
changes nothing if there are none among its own statements, and it never changes a function in the body.
-/

set_option autoImplicit false

namespace MatchChain

/-! ## Own statements -/

mutual

/-- A statement and the statements in it, but for those of the functions in it. -/
def Stmt.own : Stmt → List Stmt
  | s@(.block _ body) => s :: ownOf body
  | s@(.ifElse _ _ thenBranch elseBranch) => s :: (thenBranch.own ++ ownElse elseBranch)
  | s@(.labeled _ _ body) | s@(.whileLoop _ _ body) => s :: body.own
  | s@(.tryCatch _ body handler finalizer) =>
    s :: (ownOf body ++ ownCatch handler ++ ownFinally finalizer)
  | s => [s]

/-- The own statements of a list. -/
def ownOf : List Stmt → List Stmt
  | [] => []
  | s :: ss => s.own ++ ownOf ss

def ownElse : Option Stmt → List Stmt
  | none => []
  | some s => s.own

def ownCatch : Option CatchClause → List Stmt
  | none => []
  | some ⟨_, body⟩ => ownOf body

def ownFinally : Option (List Stmt) → List Stmt
  | none => []
  | some body => ownOf body

end

namespace Stmt

def isReturn : Stmt → Bool
  | ret .. => true
  | _ => false

/-- A return without a value. -/
def isBareReturn : Stmt → Bool
  | ret _ none => true
  | _ => false

/-- The label that a statement has or jumps to. -/
def label? : Stmt → Option String
  | labeled _ label _ => some label
  | breakTo _ label | continueTo _ label => label
  | _ => none

/-- A statement whose finalizer, if it has one, has no return before it that it could override. -/
def isCalm : Stmt → Bool
  | tryCatch _ body handler (some _) => (ownOf body ++ ownCatch handler).all (!·.isReturn)
  | _ => true

/-- A statement in whose finalizer, if it has one, no return is overridden. -/
def isSettled : Stmt → Bool
  | tryCatch _ _ _ (some body) => (ownOf body).all isCalm
  | _ => true

/-- A statement that holds no statement and is no return. -/
def isSimple : Stmt → Bool
  | expr .. | varDecl .. | funcDecl .. | breakTo .. | continueTo .. | throwing .. | importDecl .. | empty _ => true
  | _ => false

theorem mem_own (s : Stmt) : s ∈ s.own := by
  cases s with
  | ifElse | block | labeled | tryCatch | whileLoop => exact List.mem_cons_self
  | _ => simp [own]

end Stmt

theorem own_subset_ownOf {s : Stmt} {ss : List Stmt} (h : s ∈ ss) : s.own ⊆ ownOf ss := by
  induction ss with
  | nil => cases h
  | cons t ss ih =>
    rw [ownOf]
    cases h with
    | head => exact List.subset_append_left _ _
    | tail _ h => exact List.Subset.trans (ih h) (List.subset_append_right _ _)

/-! ## No returns, no change -/

namespace Sink

theorem redirectAll?_eq_none (sink : Sink) (span : Span) (ss : List Stmt) :
    sink.redirectAll? span ss = none ↔ ∀ t ∈ ownOf ss, t.isReturn = false := by
  apply redirectAll.induct (fun s => sink.redirect? span s = none ↔ ∀ t ∈ s.own, t.isReturn = false)
    (fun ss => sink.redirectFinally? span ss = none ↔ ∀ t ∈ ownFinally ss, t.isReturn = false)
    (fun ss => sink.redirectAll? span ss = none ↔ ∀ t ∈ ownOf ss, t.isReturn = false)
    (fun c => sink.redirectCatch? span c = none ↔ ∀ t ∈ ownCatch c, t.isReturn = false)
    (fun s => sink.redirectElse? span s = none ↔ ∀ t ∈ ownElse s, t.isReturn = false)
  case case3 =>
    intro _ _ thenBranch elseBranch hthen helse
    rw [redirect?, Stmt.own, List.forall_mem_cons, List.forall_mem_append, ← hthen, ← helse]
    cases sink.redirect? span thenBranch <;> cases sink.redirectElse? span elseBranch <;>
      simp [Stmt.isReturn]
  case case6 =>
    intro _ body handler finalizer hbody hhandler hfinalizer
    rw [redirect?, Stmt.own, List.forall_mem_cons, List.forall_mem_append, List.forall_mem_append,
      ← hbody, ← hhandler, ← hfinalizer]
    cases sink.redirectAll? span body <;> cases sink.redirectCatch? span handler <;>
      cases sink.redirectFinally? span finalizer <;> simp [Stmt.isReturn]
  case case9 =>
    intro s ss hs hss
    rw [redirectAll?, ownOf, List.forall_mem_append, ← hs, ← hss]
    cases sink.redirect? span s <;> cases sink.redirectAll? span ss <;> simp
  case case7 =>
    intro s _ _ hif _ _ htry
    cases s with
    | ifElse => exact (hif _ _ _ _ rfl).elim
    | tryCatch => exact (htry _ _ _ _ rfl).elim
    | _ => simp_all [redirect?, Stmt.own, Stmt.isReturn]
  all_goals
    intros
    simp_all [redirect?, redirectAll?, redirectElse?, redirectCatch?, redirectFinally?, Stmt.own, ownOf, ownElse,
      ownCatch, ownFinally, Stmt.isReturn]

/-! ## What becomes of statements -/

/-- One statement stands in place of one that is no return. -/
theorem redirect_eq_single (sink : Sink) (span : Span) {s : Stmt} (h : s.isReturn = false) :
    sink.redirect span s = [.single span (sink.redirect span s)] := by
  cases s with
  | ret => cases h
  | _ => rfl

end Sink

/-! ## Functions stay as they are -/

/-- The function, if the node is one. -/
def Visit.func? (v : Visit) : Option Func :=
  match v.node with
  | .expr (.func _ fn) | .stmt (.funcDecl _ fn) => some fn
  | _ => none

namespace Visit

/-- The functions among some nodes. -/
def funcs (vs : List Visit) : List Func := vs.filterMap func?

@[simp] theorem funcs_append (vs vs' : List Visit) : funcs (vs ++ vs') = funcs vs ++ funcs vs' :=
  List.filterMap_append

@[simp] theorem funcs_cons (v : Visit) (vs : List Visit) : funcs (v :: vs) = v.func?.toList ++ funcs vs := by
  unfold funcs
  cases h : v.func? with
  | none => exact List.filterMap_cons_none h
  | some fn => exact List.filterMap_cons_some h

@[simp] theorem funcs_nil : funcs [] = [] := rfl

variable (enter : Func → Bool) (nested : Bool)

theorem ofStmts_append (ss ts : List Stmt) :
    ofStmts enter nested (ss ++ ts) = ofStmts enter nested ss ++ ofStmts enter nested ts := by
  induction ss with
  | nil => rfl
  | cons s ss ih => rw [List.cons_append, ofStmts, ih, ofStmts, List.append_assoc]

theorem funcs_single (span : Span) (ss : List Stmt) :
    funcs (ofStmt enter nested (.single span ss)) = funcs (ofStmts enter nested ss) := by
  match ss with
  | [s] => simp [Stmt.single, ofStmts]
  | [] | _ :: _ :: _ => simp [Stmt.single, ofStmt, func?]

/-- Redirected statements hold the same functions. -/
theorem funcs_redirectAll (inner span : Span) (target label : String) (ss : List Stmt) :
    funcs (ofStmts enter nested ((Sink.assign (.ident inner target) label).redirectAll span ss))
      = funcs (ofStmts enter nested ss) := by
  let sink := Sink.assign (.ident inner target) label
  apply Sink.redirectAll.induct
    (fun s => funcs (ofStmts enter nested (sink.redirect span s)) = funcs (ofStmt enter nested s))
    (fun ss => funcs (ofStmts? enter nested (sink.redirectFinally span ss)) = funcs (ofStmts? enter nested ss))
    (fun ss => funcs (ofStmts enter nested (sink.redirectAll span ss)) = funcs (ofStmts enter nested ss))
    (fun c => funcs (ofCatch enter nested (sink.redirectCatch span c)) = funcs (ofCatch enter nested c))
    (fun s => funcs (ofStmt? enter nested (sink.redirectElse span s)) = funcs (ofStmt? enter nested s))
  case case1 =>
    rintro _ (_ | value) <;> simp [sink, Sink.redirect, Sink.exit, ofStmts, ofStmt, ofExpr, ofExpr?, func?]
  case case13 =>
    rintro (_ | param) body hbody <;> simp [Sink.redirectCatch, ofCatch, hbody]
  all_goals
    intros
    simp_all [Sink.redirect, Sink.redirectAll, Sink.redirectElse, Sink.redirectCatch, Sink.redirectFinally,
      ofStmts, ofStmt, ofStmt?, ofStmts?, func?, ofStmts_append, funcs_single]

end Visit

/-- The functions in a list of statements, in source order, but for those inside others. -/
def functionsOf (ss : List Stmt) : List Func := Visit.funcs (Visit.ofStmts (fun _ => false) false ss)

end MatchChain
