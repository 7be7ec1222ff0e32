import MatchChain.Code.Sink

/-!
# Redirected returns

`Sink.redirectAll?` gives nothing where nothing changes. What takes the place of a statement list in either
case is given by recursion on the list, and says of each kind of statement what becomes of it.
-/

set_option autoImplicit false

namespace MatchChain

namespace Sink

mutual

/-- What stands in place of a statement whose returns leave through the sink. -/
def redirect (sink : Sink) (span : Span) : Stmt → List Stmt
  | .ret _ value => sink.exit span value
  | .block s body => [.block s (redirectAll sink span body)]
  | .ifElse s cond thenBranch elseBranch =>
    [.ifElse s cond (.single span (redirect sink span thenBranch))
      (redirectElse sink span elseBranch)]
  | .labeled s label body => [.labeled s label (.single span (redirect sink span body))]
  | .whileLoop s cond body => [.whileLoop s cond (.single span (redirect sink span body))]
  | .tryCatch s body handler finalizer =>
    [.tryCatch s (redirectAll sink span body) (redirectCatch sink span handler)
      (redirectFinally sink span finalizer)]
  | s => [s]

def redirectAll (sink : Sink) (span : Span) : List Stmt → List Stmt
  | [] => []
  | s :: ss => redirect sink span s ++ redirectAll sink span ss

def redirectElse (sink : Sink) (span : Span) : Option Stmt → Option Stmt
  | none => none
  | some s => some (.single span (redirect sink span s))

def redirectCatch (sink : Sink) (span : Span) : Option CatchClause → Option CatchClause
  | none => none
  | some ⟨param, body⟩ => some ⟨param, redirectAll sink span body⟩

def redirectFinally (sink : Sink) (span : Span) : Option (List Stmt) → Option (List Stmt)
  | none => none
  | some body => some (redirectAll sink span body)

end

/-! ## Nothing stands for no change -/

/-- One statement in place of another, where none stands for no change. -/
theorem getD_map_single (span : Span) {s : Stmt} {ss : List Stmt} {new : Option (List Stmt)}
    (h : new.getD [s] = ss) : (new.map (Stmt.single span)).getD s = .single span ss := by
  subst h
  cases new <;> rfl

section

variable (sink : Sink) (span : Span)

mutual

theorem getD_redirect? : ∀ s : Stmt, (sink.redirect? span s).getD [s] = sink.redirect span s
  | .ret _ _ => rfl
  | .block s body => by
    have hbody := getD_redirectAll? body
    rw [redirect?, redirect, ← hbody]
    cases sink.redirectAll? span body <;> rfl
  | .ifElse s cond thenBranch elseBranch => by
    have hthen := getD_map_single span (getD_redirect? thenBranch)
    have helse := or_redirectElse? elseBranch
    rw [redirect?, redirect, ← hthen, ← helse]
    cases (sink.redirect? span thenBranch).map (Stmt.single span) <;>
      cases sink.redirectElse? span elseBranch <;> rfl
  | .labeled s label body => by
    have hbody := getD_redirect? body
    rw [redirect?, redirect, ← hbody]
    cases sink.redirect? span body <;> rfl
  | .whileLoop s cond body => by
    have hbody := getD_redirect? body
    rw [redirect?, redirect, ← hbody]
    cases sink.redirect? span body <;> rfl
  | .tryCatch s body handler finalizer => by
    have hbody := getD_redirectAll? body
    have hhandler := or_redirectCatch? handler
    have hfinalizer := or_redirectFinally? finalizer
    rw [redirect?, redirect, ← hbody, ← hhandler, ← hfinalizer]
    cases sink.redirectAll? span body <;> cases sink.redirectCatch? span handler <;>
      cases sink.redirectFinally? span finalizer <;> rfl
  | .expr .. | .varDecl .. | .funcDecl .. | .breakTo .. | .continueTo .. | .throwing .. | .importDecl ..
  | .empty _ => rfl

/-- A list with its returns redirected, whether there are any or not. -/
theorem getD_redirectAll? : ∀ ss : List Stmt, (sink.redirectAll? span ss).getD ss = sink.redirectAll span ss
  | [] => rfl
  | s :: ss => by
    have hs := getD_redirect? s
    have hss := getD_redirectAll? ss
    rw [redirectAll?, redirectAll, ← hs, ← hss]
    cases sink.redirect? span s <;> cases sink.redirectAll? span ss <;> rfl

theorem or_redirectElse? : ∀ s : Option Stmt, (sink.redirectElse? span s).or s = sink.redirectElse span s
  | none => rfl
  | some s => by
    rw [redirectElse?, redirectElse, ← getD_map_single span (getD_redirect? s)]
    cases (sink.redirect? span s).map (Stmt.single span) <;> rfl

theorem or_redirectCatch? : ∀ c : Option CatchClause,
    (sink.redirectCatch? span c).or c = sink.redirectCatch span c
  | none => rfl
  | some ⟨param, body⟩ => by
    have hbody := getD_redirectAll? body
    rw [redirectCatch?, redirectCatch, ← hbody]
    cases sink.redirectAll? span body <;> rfl

theorem or_redirectFinally? : ∀ ss : Option (List Stmt),
    (sink.redirectFinally? span ss).or ss = sink.redirectFinally span ss
  | none => rfl
  | some body => by
    have hbody := getD_redirectAll? body
    rw [redirectFinally?, redirectFinally, ← hbody]
    cases sink.redirectAll? span body <;> rfl

end

end

end Sink

end MatchChain
