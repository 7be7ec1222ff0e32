import MatchChain.Proofs.Code.Detour
import MatchChain.Proofs.Simulation.Reachable

/-!
# Bodies with redirected returns

`Sink.redirectAll?` makes the returns of a body leave through an assignment and a jump. By induction on the
statements, the body that it gives runs like the body itself: it returns where the other jumps to the label, and
otherwise it ends the same way, with the same effects. Two things have to be left out. A return without a value
assigns what `undefined` names, so the body must not declare that name; and a return that is overridden inside a
finalizer assigns after the return that the finalizer belongs to, so what the variable holds is only known where
there is none.
-/

set_option autoImplicit false

namespace MatchChain

open Eval Outcome

namespace Route

/-- What is asked of an own statement of the body. -/
structure Suits (ρ : Route) (s : Stmt) : Prop where
  label : s.label? ≠ some ρ.label
  bare : s.isBareReturn = true → ρ.bare
  declared : ρ.bare → "undefined" ∉ s.declaredNames

variable {ρ : Route}

/-- Redirected statements declare the same functions. -/
theorem hoist_redirectAll (ρ : Route) (inner span : Span) (ss : List Stmt) :
    hoist ((ρ.sink inner).redirectAll span ss) = hoist ss := by
  induction ss with
  | nil => rfl
  | cons s ss ih =>
    have hhead : ∀ rest, hoist ((ρ.sink inner).redirect span s ++ rest) = hoist (s :: rest) := by
      intro rest
      cases s <;> rfl
    have htail : ∃ first : Eval Unit, ∀ rest, hoist (s :: rest) = first >>= fun _ => hoist rest :=
      ⟨_, fun rest => rfl⟩
    obtain ⟨first, htail⟩ := htail
    rw [Sink.redirectAll, hhead, htail, htail, ih]

theorem Alike.body {inner span : Span} {ss : List Stmt} (hss : ∀ s ∈ ss, s.Within ρ.names)
    (hsuits : ∀ t ∈ ownOf ss, ρ.Suits t)
    (h : ρ.Alike (ownOf ss) (limit fun n => sequence (stmt n) ((ρ.sink inner).redirectAll span ss))
      (limit fun n => sequence (stmt n) ss)) :
    ρ.Alike (ownOf ss) (limit (stmts · ((ρ.sink inner).redirectAll span ss))) (limit (stmts · ss)) := by
  refine h.hoisted (ρ.hoist_redirectAll inner span ss) hss fun hbare s hs => ?_
  exact (hsuits s (own_subset_ownOf hs (Stmt.mem_own s))).declared hbare

theorem single_redirect_ne_loop (sink : Sink) (span : Span) {s : Stmt}
    (h : ∀ span cond body, s ≠ .whileLoop span cond body) (hexit : ∀ value, ∃ a b, sink.exit span value = [a, b]) :
    ∀ span' cond body, Stmt.single span (sink.redirect span s) ≠ .whileLoop span' cond body := by
  cases s with
  | whileLoop span cond body => exact absurd rfl (h span cond body)
  | ret _ value =>
    obtain ⟨a, b, heq⟩ := hexit value
    rw [Sink.redirect, heq]
    rintro _ _ _ ⟨⟩
  | _ => rintro _ _ _ ⟨⟩

section

variable (ρ : Route) (inner span : Span)

mutual

/-- A statement with its returns redirected runs like the statement. -/
theorem alike : ∀ s : Stmt, s.Within ρ.names → (∀ t ∈ s.own, ρ.Suits t) →
    ρ.Alike s.own (limit (stmt · (.single span ((ρ.sink inner).redirect span s)))) (limit (stmt · s))
  | .ret s value, hs, hsuits => by
    refine Alike.exit (Stmt.within_ret.mp hs) (fun hnone => ?_) inner span s
    exact (hsuits _ (Stmt.mem_own _)).bare (by rw [hnone]; rfl)
  | .block s body, hs, hsuits => by
    rw [Stmt.own] at hsuits ⊢
    have hbody := Stmt.within_block.mp hs
    have hinner := (List.forall_mem_cons.mp hsuits).2
    exact ((alikeAll body hbody hinner).body hbody hinner).block s |>.widen (List.subset_cons_self ..)
  | .ifElse s cond thenBranch elseBranch, hs, hsuits => by
    rw [Stmt.own] at hsuits ⊢
    obtain ⟨hcond, hthen, helse⟩ := Stmt.within_ifElse.mp hs
    obtain ⟨hsuitsThen, hsuitsElse⟩ := List.forall_mem_append.mp (List.forall_mem_cons.mp hsuits).2
    have hbranches := (alike thenBranch hthen hsuitsThen).ifElse hcond (alikeElse elseBranch helse hsuitsElse) s
    exact hbranches.widen (List.subset_cons_self ..)
  | .labeled s label body, hs, hsuits => by
    rw [Stmt.own] at hsuits ⊢
    obtain ⟨hhere, hinner⟩ := List.forall_mem_cons.mp hsuits
    have hlabel : label ≠ ρ.label := fun heq => hhere.label (congrArg some heq)
    have hs := Stmt.within_labeled.mp hs
    cases body with
    | whileLoop s' cond body =>
      -- the label is the loop's own
      rw [Stmt.own] at hinner ⊢
      obtain ⟨hcond, hbody⟩ := Stmt.within_whileLoop.mp hs
      have hloop := (alike body hbody (List.forall_mem_cons.mp hinner).2).loop hcond
        fun heq : some label = some ρ.label => hlabel (Option.some.inj heq)
      rw [Sink.redirect, Sink.redirect, Stmt.single, Stmt.single, limit_stmt_labeledLoop,
        limit_stmt_labeledLoop]
      exact hloop.widen fun t ht => List.mem_cons_of_mem _ (List.mem_cons_of_mem _ ht)
    | _ =>
      have hbody := alike _ hs hinner
      refine (hbody.labeled ?_ ?_ hlabel s).widen (List.subset_cons_self ..)
      · rintro _ _ _ ⟨⟩
      · exact single_redirect_ne_loop _ span (by rintro _ _ _ ⟨⟩) fun _ => ⟨_, _, rfl⟩
  | .whileLoop s cond body, hs, hsuits => by
    rw [Stmt.own] at hsuits ⊢
    obtain ⟨hcond, hbody⟩ := Stmt.within_whileLoop.mp hs
    have hlabel : none ≠ some ρ.label := by rintro ⟨⟩
    have hloop := (alike body hbody (List.forall_mem_cons.mp hsuits).2).loop hcond hlabel
    rw [Sink.redirect, Stmt.single, limit_stmt_loop, limit_stmt_loop]
    exact hloop.widen (List.subset_cons_self ..)
  | .tryCatch s body handler finalizer, hs, hsuits => by
    have hhere := hsuits _ (Stmt.mem_own _)
    rw [Stmt.own] at hsuits
    obtain ⟨hbody, hhandler, hfinalizer⟩ := Stmt.within_tryCatch.mp hs
    obtain ⟨hparts, hsuitsFinally⟩ := List.forall_mem_append.mp (List.forall_mem_cons.mp hsuits).2
    obtain ⟨hsuitsBody, hsuitsCatch⟩ := List.forall_mem_append.mp hparts
    refine ((alikeAll body hbody hsuitsBody).body hbody hsuitsBody).tryCatch ?_
      (alikeFinally finalizer hfinalizer hsuitsFinally) s
    refine alikeCatch handler hhandler (fun hbare c hc target htarget => ?_) hsuitsCatch
    obtain ⟨param, body⟩ := c
    cases hc
    cases htarget
    exact hhere.declared hbare
  | .expr .., hs, hsuits | .varDecl .., hs, hsuits | .funcDecl .., hs, hsuits | .breakTo .., hs, hsuits
  | .continueTo .., hs, hsuits | .throwing .., hs, hsuits | .importDecl .., hs, hsuits | .empty _, hs, hsuits =>
    have hhere := hsuits _ (Stmt.mem_own _)
    Alike.simple rfl hs hhere.label hhere.declared

theorem alikeAll : ∀ ss : List Stmt, (∀ s ∈ ss, s.Within ρ.names) → (∀ t ∈ ownOf ss, ρ.Suits t) →
    ρ.Alike (ownOf ss) (limit fun n => sequence (stmt n) ((ρ.sink inner).redirectAll span ss))
      (limit fun n => sequence (stmt n) ss)
  | [], _, _ => .nil
  | s :: ss, hss, hsuits => by
    rw [ownOf] at hsuits ⊢
    obtain ⟨hs, hss⟩ := List.forall_mem_cons.mp hss
    obtain ⟨hsuitsHead, hsuitsTail⟩ := List.forall_mem_append.mp hsuits
    have hhead := alike s hs hsuitsHead
    have htail := alikeAll ss hss hsuitsTail
    rw [Sink.redirectAll]
    cases hreturn : s.isReturn with
    | false =>
      rw [Sink.redirect_eq_single _ _ hreturn]
      exact hhead.cons htail
    | true =>
      cases s with
      | ret s value =>
        intro w u m₁ m₂ hface _
        have hbare : value = none → ρ.bare := fun hnone =>
          (hsuitsHead _ (Stmt.mem_own _)).bare (by rw [hnone]; rfl)
        rw [limit_sequence_ret]
        refine (hface.exit (Stmt.within_ret.mp hs) hbare inner span s _).imp fun _ _ _ _ _ _ _ _ hr => ?_
        exact hr.widen (List.subset_append_left ..) fun _ => rfl
      | _ => cases hreturn

theorem alikeElse : ∀ s : Option Stmt, (∀ t ∈ s, t.Within ρ.names) → (∀ t ∈ ownElse s, ρ.Suits t) →
    ρ.Alike (ownElse s) (otherwise ((ρ.sink inner).redirectElse span s)) (otherwise s)
  | none, _, _ => fun _ _ _ _ hface _ =>
    .here hface.aligned.agree (.same hface (fun _ => rfl) ρ.passes_normal)
  | some s, hs, hsuits => alike s (hs s rfl) hsuits

theorem alikeCatch : ∀ c : Option CatchClause, (∀ t ∈ c, t.Within ρ.names) →
    (ρ.bare → ∀ t ∈ c, ∀ target ∈ t.param, "undefined" ∉ target.names) → (∀ t ∈ ownCatch c, ρ.Suits t) →
    ρ.Catches (ownCatch c) ((ρ.sink inner).redirectCatch span c) c
  | none, _, _, _ => .none
  | some ⟨param, body⟩, hc, hdeclared, hsuits => by
    obtain ⟨hparam, hbody⟩ := hc _ rfl
    exact .some hparam (fun hbare => hdeclared hbare _ rfl)
      ((alikeAll body hbody hsuits).body hbody hsuits)

theorem alikeFinally : ∀ ss : Option (List Stmt), (∀ b ∈ ss, ∀ s ∈ b, s.Within ρ.names) →
    (∀ t ∈ ownFinally ss, ρ.Suits t) → ρ.Finishes ((ρ.sink inner).redirectFinally span ss) ss
  | none, _, _ => .none
  | some body, hbody, hsuits => .some ((alikeAll body (hbody body rfl) hsuits).body (hbody body rfl) hsuits)

end

end

end Route

/-- How a list ended whose returns assign `t` and jump to `L`, next to how the list `ss` itself ended. In either
    case `t` is still where it was. -/
inductive Redirected (t L : String) (home : Nat) (ss : List Stmt) (w : World) (m : Machine) :
    Except EvalError Flow → Except EvalError Flow → Prop
  | returned {u v : Value} : m.owner? t = some (home, ⟨u, true⟩) →
      ((∀ s ∈ ownOf ss, s.isSettled = true) → w.Rel u v) →
      Redirected t L home ss w m (.ok (.breakTo (some L))) (.ok (.ret v))
  | passed {u : Value} {flow : Flow} : m.owner? t = some (home, ⟨u, true⟩) → (∀ v, flow ≠ .ret v) →
      flow ≠ .breakTo (some L) → Redirected t L home ss w m (.ok flow) (.ok flow)
  | raised {u : Value} {e e' : EvalError} : m.owner? t = some (home, ⟨u, true⟩) → w.RelError e e' →
      Redirected t L home ss w m (.error e) (.error e')

theorem Route.Ended.redirected {ρ : Route} {ss : List Stmt} {u : Value} {w : World} {m₁ m₂ : Machine}
    {r r' : Except EvalError Flow} (h : ρ.Ended (ownOf ss) u w m₁ m₂ r r') :
    Redirected ρ.target ρ.label ρ.home ss w m₁ r r' := by
  cases h with
  | returned _ hface hvalue => exact .returned hface.target hvalue
  | same hface _ hpasses => exact .passed hface.target hpasses.ne_ret hpasses.ne_jump
  | raised hface _ he => exact .raised hface.target he

-- A return that is overridden in a finalizer is assigned last: the list returns null, the variable holds true.
example :
    let span : Span := default
    let m := Machine.initial.defined Scopes.outermost "t" ⟨.undefined, true⟩
    let ss : List Stmt := [.tryCatch span [.ret span (some (.null span))] none (some
      [.labeled span "inner" (.tryCatch span [.ret span (some (.bool span true))] none
        (some [.breakTo span (some "inner")]))])]
    let run (ss : List Stmt) := (stmts 12 ss).run.run m
    let redirected := (Sink.assign (.ident span "t") "end").redirectAll? span ss
    (run ss).1 = .ok (.ret .null) ∧ (run (redirected.getD ss)).1 = .ok (.breakTo (some "end")) ∧
      (run (redirected.getD ss)).2.lookup? "t" = some (.bool true) := by
  decide +kernel

/-- The machine that has run nothing yet, with a variable more. -/
def Machine.withVariable (t : String) : Machine := Machine.initial.defined Scopes.outermost t ⟨.undefined, true⟩

/-- A return that a finalizer overrides by leaving the loop around it, and then a return of a function that
    returns. -/
def leftLoop : List Stmt :=
  let span : Span := default
  [.labeled span "again" (.whileLoop span (.bool span true)
      (.tryCatch span [.ret span none] none (some [.breakTo span (some "again")]))),
    .ret span (some (.func span ⟨span, .arrow, none, [], .block [.ret span none], false, false⟩))]

/-- A return without a value next to a declaration of `undefined`. -/
def shadowedUndefined : List Stmt :=
  [.varDecl default .constVar [⟨default, .ident default "undefined", some (.null default)⟩], .ret default none]

end MatchChain
