import MatchChain.Proofs.Eval.Statements

/-!
# Loops by rounds

A loop that ends does so after some number of rounds. What it does within a bound on its rounds is
given by recursion on the bound, so that what holds of loops is proved by induction on it.
-/

set_option autoImplicit false

namespace MatchChain

namespace Eval

open Outcome

/-- What follows a round: another one, or the end. -/
def afterward (again : Machine → Option (Outcome Flow)) (m : Machine) :
    AfterRound → Option (Outcome Flow)
  | .again => again m
  | .stop flow => some (.ok flow, m)

section

variable (cond : Expr) (body : Stmt) (label : Option String)

/-- The condition and, if it holds, the body and what follows. -/
noncomputable def round (again : Machine → Option (Outcome Flow)) (m : Machine) : Option (Outcome Flow) :=
  (limit (expr · cond) m).bind (andThen fun v m' =>
    if v.isTruthy then
      (limit (stmt · body) m').bind (andThen fun flow m'' => afterward again m'' (flow.afterRound label))
    else some (.ok .normal, m'))

/-- A loop that may go round a number of times; none if it needs more. -/
noncomputable def rounds : Nat → Machine → Option (Outcome Flow)
  | 0, _ => none
  | k + 1, m => round cond body label (rounds k) m

theorem limit_loop (m : Machine) : limit (loop · cond body label) m
    = round cond body label (limit (loop · cond body label)) m := by
  conv => lhs; rw [limit_succ]
  simp only [Eval.loop]
  rw [(growing_expr cond).limit_bind, round]
  congr 2
  funext v m'
  split
  · rw [(growing_stmt body).limit_bind]
    congr 2
    funext flow m''
    cases flow.afterRound label with
    | again => rfl
    | stop flow => exact limit_const _ m''
  · exact limit_const _ m'

variable {cond body label}

/-- A round does no less if what follows it does no less. -/
theorem round_mono {again again' : Machine → Option (Outcome Flow)}
    (h : ∀ m r, again m = some r → again' m = some r) {m : Machine} {r : Outcome Flow}
    (hr : round cond body label again m = some r) : round cond body label again' m = some r := by
  unfold round at hr ⊢
  generalize limit (expr · cond) m = first at hr ⊢
  rcases first with _ | ⟨e | v, m'⟩
  · exact hr
  · exact hr
  · simp only [Option.bind_some, andThen_ok] at hr ⊢
    split
    · rename_i hv
      rw [if_pos hv] at hr
      generalize limit (stmt · body) m' = second at hr ⊢
      rcases second with _ | ⟨e | flow, m''⟩
      · exact hr
      · exact hr
      · simp only [Option.bind_some, andThen_ok] at hr ⊢
        cases hround : flow.afterRound label with
        | again =>
          rw [hround] at hr
          exact h m'' r hr
        | stop flow =>
          rw [hround] at hr
          exact hr
    · rename_i hv
      rw [if_neg hv] at hr
      exact hr

theorem limit_loop_of_rounds {k : Nat} : ∀ {m : Machine} {r : Outcome Flow},
    rounds cond body label k m = some r → limit (loop · cond body label) m = some r := by
  induction k with
  | zero => intro m r hr; cases hr
  | succ k ih =>
    intro m r hr
    rw [limit_loop]
    exact round_mono (fun _ _ => ih) hr

/-- Every round takes a step, so that a loop has no more rounds than steps. -/
theorem rounds_of_run {n : Nat} : ∀ {m : Machine} {r : Outcome Flow},
    Outcome.ofRun? ((loop n cond body label).run.run m) = some r → rounds cond body label n m = some r := by
  induction n with
  | zero => intro m r hr; cases hr
  | succ n ih =>
    intro m r hr
    rw [Eval.loop, ofRun?_bind, Option.bind_eq_some_iff] at hr
    obtain ⟨first, hfirst, hr⟩ := hr
    rw [rounds, round, limit_eq_some.mpr ((growing_expr cond).ends hfirst)]
    obtain ⟨e | v, m'⟩ := first
    · exact hr
    · simp only [Option.bind_some, andThen_ok] at hr ⊢
      split
      · rename_i hv
        rw [if_pos hv, ofRun?_bind, Option.bind_eq_some_iff] at hr
        obtain ⟨second, hsecond, hr⟩ := hr
        rw [limit_eq_some.mpr ((growing_stmt body).ends hsecond)]
        obtain ⟨e | flow, m''⟩ := second
        · exact hr
        · simp only [Option.bind_some, andThen_ok] at hr ⊢
          cases hround : flow.afterRound label with
          | again =>
            rw [hround] at hr
            exact ih hr
          | stop flow =>
            rw [hround] at hr
            exact hr
      · rename_i hv
        rw [if_neg hv] at hr
        exact hr

/-- A loop ends so if it does within some number of rounds. -/
theorem limit_loop_eq_some {m : Machine} {r : Outcome Flow} :
    limit (loop · cond body label) m = some r ↔ ∃ k, rounds cond body label k m = some r := by
  constructor
  · intro h
    obtain ⟨n, hn⟩ := limit_eq_some.mp h
    exact ⟨n, rounds_of_run (hn n (Nat.le_refl n))⟩
  · rintro ⟨k, hk⟩
    exact limit_loop_of_rounds hk

end

end Eval

end MatchChain
