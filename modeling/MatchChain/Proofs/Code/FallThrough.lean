import MatchChain.Code.Generate
import MatchChain.Proofs.Code.Redirect
import MatchChain.Proofs.Eval.Run

/-!
# Bodies that do not fall through

If the end of some statements is judged out of reach, running them never ends normally. The judgement is made
on the body of a handler as it was written, and what becomes of the body keeps to it: a return that is sent to a
sink ends in a jump. So the block of a branch never runs on into the next branch.

`Diverts` stands between the judgement and the runs. The judgement implies it, redirecting returns keeps it, and
a statement that it holds of leaves the statements around it in every run that ends.
-/

set_option autoImplicit false

namespace MatchChain

/-- Whatever its conditions are and whatever throws, control does not come to the end of the statement. -/
inductive Diverts : Stmt → Prop
  | ret (span : Span) (value : Option Expr) : Diverts (.ret span value)
  | throwing (span : Span) (e : Expr) : Diverts (.throwing span e)
  | breakTo (span : Span) (label : Option String) : Diverts (.breakTo span label)
  | block {span : Span} {body : List Stmt} {s : Stmt} : s ∈ body → Diverts s → Diverts (.block span body)
  | ifElse {span : Span} {cond : Expr} {s t : Stmt} : Diverts s → Diverts t → Diverts (.ifElse span cond s (some t))
  /-- A finalizer hides how the block and the catch clause ended. -/
  | finalized {span : Span} {body : List Stmt} {handler : Option CatchClause} {finalizer : List Stmt} {s : Stmt} :
      s ∈ finalizer → Diverts s → Diverts (.tryCatch span body handler (some finalizer))
  | uncaught {span : Span} {body : List Stmt} {finalizer : Option (List Stmt)} {s : Stmt} :
      s ∈ body → Diverts s → Diverts (.tryCatch span body none finalizer)
  | caught {span : Span} {body : List Stmt} {c : CatchClause} {finalizer : Option (List Stmt)} {s t : Stmt} :
      s ∈ body → Diverts s → t ∈ c.body → Diverts t → Diverts (.tryCatch span body (some c) finalizer)

/-- With or without a catch clause. -/
theorem Diverts.tryCatch {span : Span} {body : List Stmt} {handler : Option CatchClause}
    {finalizer : Option (List Stmt)} (hbody : ∃ s ∈ body, Diverts s)
    (hcatch : ∀ c ∈ handler, ∃ s ∈ c.body, Diverts s) : Diverts (.tryCatch span body handler finalizer) := by
  obtain ⟨s, hs, hdiverts⟩ := hbody
  cases handler with
  | none => exact .uncaught hs hdiverts
  | some c =>
    obtain ⟨t, ht, hdiverts'⟩ := hcatch c rfl
    exact .caught hs hdiverts ht hdiverts'

/-! ## The judgement -/

mutual

theorem Diverts.of_canComplete : ∀ {s : Stmt}, s.canComplete = false → Diverts s
  | .ret .., _ => .ret ..
  | .throwing .., _ => .throwing ..
  | .block _ _, h => by
    obtain ⟨s, hs, hdiverts⟩ := Diverts.of_listCanComplete h
    exact .block hs hdiverts
  | .ifElse _ _ _ (some _), h => by
    obtain ⟨hthen, helse⟩ := Bool.or_eq_false_iff.mp h
    exact .ifElse (.of_canComplete hthen) (.of_canComplete helse)
  | .tryCatch _ _ _ finalizer, h => by
    rcases Bool.and_eq_false_iff.mp h with hfinalizer | h
    · obtain ⟨body, rfl, s, hs, hdiverts⟩ := Diverts.of_finallyCanComplete hfinalizer
      exact .finalized hs hdiverts
    · obtain ⟨hbody, hcatch⟩ := Bool.or_eq_false_iff.mp h
      exact .tryCatch (Diverts.of_listCanComplete hbody) (Diverts.of_catchCanComplete hcatch)

/-- A list leaves with one of its statements, the last. -/
theorem Diverts.of_listCanComplete : ∀ {ss : List Stmt}, listCanComplete ss = false → ∃ s ∈ ss, Diverts s
  | [s], h => ⟨s, List.mem_singleton_self s, .of_canComplete h⟩
  | s :: t :: ss, h => by
    have hrest : listCanComplete (t :: ss) = false := h
    obtain ⟨u, hu, hdiverts⟩ := Diverts.of_listCanComplete hrest
    exact ⟨u, List.mem_cons_of_mem s hu, hdiverts⟩

theorem Diverts.of_catchCanComplete : ∀ {handler : Option CatchClause}, catchCanComplete handler = false →
    ∀ c ∈ handler, ∃ s ∈ c.body, Diverts s
  | some ⟨_, _⟩, h, _, rfl => Diverts.of_listCanComplete h

theorem Diverts.of_finallyCanComplete : ∀ {finalizer : Option (List Stmt)}, finallyCanComplete finalizer = false →
    ∃ body, finalizer = some body ∧ ∃ s ∈ body, Diverts s
  | some body, h => ⟨body, rfl, Diverts.of_listCanComplete h⟩

end

/-! ## Redirected returns -/

namespace Sink

variable {sink : Sink} {span : Span}

theorem exit_diverts (sink : Sink) (span : Span) (value : Option Expr) : ∃ s ∈ sink.exit span value, Diverts s := by
  cases sink with
  | ret => exact ⟨_, List.mem_singleton_self _, .ret ..⟩
  | assign target label => exact ⟨_, List.mem_cons_of_mem _ (List.mem_singleton_self _), .breakTo ..⟩

theorem single_diverts {ss : List Stmt} (h : ∃ s ∈ ss, Diverts s) : Diverts (.single span ss) := by
  obtain ⟨s, hs, hdiverts⟩ := h
  rcases ss with _ | ⟨t, _ | ⟨u, ss⟩⟩
  · cases hs
  · exact List.mem_singleton.mp hs ▸ hdiverts
  · exact .block hs hdiverts

theorem redirectAll_diverts {ss : List Stmt} {s : Stmt} (hs : s ∈ ss)
    (h : ∃ t ∈ sink.redirect span s, Diverts t) : ∃ t ∈ sink.redirectAll span ss, Diverts t := by
  obtain ⟨t, ht, hdiverts⟩ := h
  induction ss with
  | nil => cases hs
  | cons u ss ih =>
    rw [redirectAll]
    rcases List.mem_cons.mp hs with rfl | hs
    · exact ⟨t, List.mem_append_left _ ht, hdiverts⟩
    · obtain ⟨v, hv, hdiverts⟩ := ih hs
      exact ⟨v, List.mem_append_right _ hv, hdiverts⟩

/-- Redirecting the returns of a statement keeps its end out of reach. -/
theorem redirect_diverts {s : Stmt} (h : Diverts s) : ∃ t ∈ sink.redirect span s, Diverts t := by
  induction h with
  | ret _ value => exact sink.exit_diverts span value
  | throwing => exact ⟨_, List.mem_singleton_self _, .throwing ..⟩
  | breakTo => exact ⟨_, List.mem_singleton_self _, .breakTo ..⟩
  | block hs _ ih =>
    obtain ⟨t, ht, hdiverts⟩ := redirectAll_diverts hs ih
    exact ⟨_, List.mem_singleton_self _, .block ht hdiverts⟩
  | ifElse _ _ ihs iht => exact ⟨_, List.mem_singleton_self _, .ifElse (single_diverts ihs) (single_diverts iht)⟩
  | finalized hs _ ih =>
    obtain ⟨t, ht, hdiverts⟩ := redirectAll_diverts hs ih
    exact ⟨_, List.mem_singleton_self _, .finalized ht hdiverts⟩
  | uncaught hs _ ih =>
    obtain ⟨t, ht, hdiverts⟩ := redirectAll_diverts hs ih
    exact ⟨_, List.mem_singleton_self _, .uncaught ht hdiverts⟩
  | @caught _ _ c _ _ _ hs _ ht _ ihs iht =>
    obtain ⟨param, body⟩ := c
    refine ⟨_, List.mem_singleton_self _, .tryCatch (redirectAll_diverts hs ihs) ?_⟩
    rintro _ ⟨⟩
    exact redirectAll_diverts ht iht

end Sink

/-! ## Runs -/

namespace Eval

/-- A step that does not end normally, whatever machine it starts from. -/
def Leaves (act : Eval Flow) : Prop := ∀ m m', act.run.run m ≠ (.ok .normal, m')

namespace Leaves

variable {α : Type} {act : Eval Flow}

theorem pure {flow : Flow} (h : flow ≠ .normal) : Leaves (Pure.pure flow) := by
  intro m m' heq
  cases heq
  exact h rfl

theorem exhausted : Leaves exhausted := by
  intro m m' heq
  cases heq

theorem raise (e : EvalError) : Leaves (raise e) := by
  intro m m' heq
  cases heq

/-- What a step leads to, if it leads on. -/
theorem bind {f : Eval α} {k : α → Eval Flow} (h : ∀ m a m', f.run.run m = (.ok a, m') → Leaves (k a)) :
    Leaves (f >>= k) := by
  intro m m' heq
  rw [run_bind] at heq
  rcases hf : f.run.run m with ⟨_ | a, m₁⟩
  · rw [hf] at heq
    cases heq
  · rw [hf] at heq
    exact h m a m₁ hf m₁ m' heq

theorem withScope (h : Leaves act) : Leaves (withScope act) := by
  intro m m' heq
  have hflow : (act.run.run m.entered).1 = .ok .normal := congrArg Prod.fst heq
  exact h m.entered _ (Prod.ext hflow rfl)

/-- Statements in order leave if one of them does. -/
theorem sequence {run : Stmt → Eval Flow} {ss : List Stmt} {s : Stmt} (hs : s ∈ ss) (h : Leaves (run s)) :
    Leaves (sequence run ss) := by
  induction ss with
  | nil => cases hs
  | cons t ss ih =>
    refine .bind fun m flow m' hrun => ?_
    cases flow with
    | normal =>
      rcases List.mem_cons.mp hs with rfl | hs
      · exact absurd hrun (h m m')
      · exact ih hs
    | _ => exact .pure (by rintro ⟨⟩)

theorem stmts {ss : List Stmt} {s : Stmt} (hs : s ∈ ss) (h : ∀ n, Leaves (stmt n s)) : ∀ n, Leaves (Eval.stmts n ss)
  | 0 => .exhausted
  | n + 1 => .bind fun _ _ _ _ => .sequence hs (h n)

/-! ### Errors that are caught -/

theorem ne_of_attempt {m m' : Machine} {result : Except EvalError Flow} (h : Leaves act)
    (hrun : (attempt act).run.run m = (.ok result, m')) : result ≠ .ok .normal := by
  rintro rfl
  rw [run_attempt] at hrun
  rcases hact : act.run.run m with ⟨(_ | _) | _, m₁⟩ <;> rw [hact] at hrun <;> cases hrun
  exact h m _ hact

theorem ne_of_recover {run : CatchClause → Value → Eval Flow} {handler : Option CatchClause} {m m' : Machine}
    {result result' : Except EvalError Flow} (hresult : result ≠ .ok .normal)
    (hcatch : ∀ c ∈ handler, ∀ v, Leaves (run c v))
    (hrun : (recover run result handler).run.run m = (.ok result', m')) : result' ≠ .ok .normal := by
  unfold recover at hrun
  split at hrun
  · rename_i e c
    split at hrun
    · rw [run_bind] at hrun
      split at hrun
      · exact ne_of_attempt (.withScope (hcatch c rfl _)) hrun
      · cases hrun
    · cases hrun
      rintro ⟨⟩
  · cases hrun
    exact hresult

/-- A finalizer that leaves hides what came before, and any other leaves it as it was. -/
theorem finish {run : List Stmt → Eval Flow} {result : Except EvalError Flow} {finalizer : Option (List Stmt)}
    (h : result ≠ .ok .normal ∨ ∃ body, finalizer = some body ∧ Leaves (run body)) :
    Leaves (finish run result finalizer) := by
  have hlift (hresult : result ≠ .ok .normal) : Leaves (lift result) := by
    intro m m' heq
    rw [run_lift] at heq
    rcases result with _ | flow
    · cases heq
    · cases heq
      exact hresult rfl
  cases finalizer with
  | none => exact hlift (h.resolve_right (by rintro ⟨_, ⟨⟩, _⟩))
  | some body =>
    refine .bind fun m flow m' hrun => ?_
    cases flow with
    | normal =>
      refine hlift (h.resolve_right ?_)
      rintro ⟨_, ⟨⟩, hbody⟩
      exact hbody.withScope m m' hrun
    | _ => exact .pure (by rintro ⟨⟩)

theorem catchBody {c : CatchClause} (h : ∀ n, Leaves (Eval.stmts n c.body)) (v : Value) : ∀ n, Leaves (catchBody n c v)
  | 0 => .exhausted
  | n + 1 => .bind fun _ _ _ _ => h n

theorem tryCatch {body : List Stmt} {handler : Option CatchClause} (hbody : ∀ n, Leaves (Eval.stmts n body))
    (hcatch : ∀ c ∈ handler, ∀ n, Leaves (Eval.stmts n c.body)) (finalizer : Option (List Stmt)) :
    ∀ n, Leaves (tryCatch n body handler finalizer)
  | 0 => .exhausted
  | n + 1 => .bind fun _ _ _ hattempt => .bind fun _ _ _ hrecover =>
    .finish (.inl (ne_of_recover (ne_of_attempt (hbody n).withScope hattempt)
      (fun c hc v => .catchBody (hcatch c hc) v n) hrecover))

theorem finalizer {finalizer : List Stmt} (h : ∀ n, Leaves (Eval.stmts n finalizer)) (body : List Stmt)
    (handler : Option CatchClause) : ∀ n, Leaves (Eval.tryCatch n body handler (some finalizer))
  | 0 => .exhausted
  | n + 1 => .bind fun _ _ _ _ => .bind fun _ _ _ _ => .finish (.inr ⟨finalizer, rfl, h n⟩)

theorem of_succ {s : Stmt} (h : ∀ n, Leaves (stmt (n + 1) s)) : ∀ n, Leaves (stmt n s)
  | 0 => .exhausted
  | n + 1 => h n

end Leaves

/-- A statement whose end is out of reach does not end normally. -/
theorem leaves_stmt {s : Stmt} (h : Diverts s) : ∀ n, Leaves (stmt n s) := by
  induction h with
  | ret span value =>
    cases value with
    | none => exact .of_succ fun _ => .pure (by rintro ⟨⟩)
    | some e => exact .of_succ fun _ => .bind fun _ _ _ _ => .pure (by rintro ⟨⟩)
  | throwing => exact .of_succ fun _ => .bind fun _ _ _ _ => .raise _
  | breakTo => exact .of_succ fun _ => .pure (by rintro ⟨⟩)
  | block hs _ ih => exact .of_succ fun n => .withScope (.stmts hs ih n)
  | ifElse _ _ ihs iht =>
    refine .of_succ fun n => .bind fun _ v _ _ => ?_
    cases v.isTruthy with
    | true => exact ihs n
    | false => exact iht n
  | finalized hs _ ih => exact .of_succ (.finalizer (.stmts hs ih) _ _)
  | uncaught hs _ ih => exact .of_succ (.tryCatch (.stmts hs ih) (by rintro _ ⟨⟩) _)
  | caught hs _ ht _ ihs iht =>
    refine .of_succ (.tryCatch (.stmts hs ihs) ?_ _)
    rintro _ ⟨⟩
    exact .stmts ht iht

end Eval

/-! ## Branches -/

namespace Emission

/-- Where the end of a body is out of reach, nothing is put after it. -/
theorem body_diverts (em : Emission) (b : FuncBody) : ∃ s ∈ em.body b, Diverts s := by
  cases b with
  | expr value => exact em.sink.exit_diverts em.span (some value)
  | block ss =>
    rw [body]
    cases hcomplete : listCanComplete ss with
    | true =>
      obtain ⟨s, hs, hdiverts⟩ := em.sink.exit_diverts em.span none
      exact ⟨s, List.mem_append_right _ hs, hdiverts⟩
    | false =>
      obtain ⟨s, hs, hdiverts⟩ := Diverts.of_listCanComplete hcomplete
      cases em.sink with
      | ret => exact ⟨s, List.mem_append_left _ hs, hdiverts⟩
      | assign target label =>
        dsimp only
        rw [Sink.getD_redirectAll?]
        obtain ⟨t, ht, hdiverts⟩ := Sink.redirectAll_diverts hs (Sink.redirect_diverts hdiverts)
        exact ⟨t, List.mem_append_left _ ht, hdiverts⟩

theorem invoke_diverts (em : Emission) (selection : Option Expr) (plan : Invocation) :
    Diverts (em.invoke selection plan) := by
  cases plan with
  | moved fn =>
    obtain ⟨s, hs, hdiverts⟩ := em.body_diverts fn.body
    exact .block (List.mem_append_right _ hs) hdiverts
  | called callee =>
    obtain ⟨s, hs, hdiverts⟩ := em.sink.exit_diverts em.span _
    exact .block hs hdiverts

end Emission

/-- Statements whose end is judged out of reach never run to it: a run that ends returns, throws, or jumps to
    somewhere outside of them. As the body of a handler they are emitted without an exit at their end, and the
    block of the branch does not run on into the next one. -/
theorem listCanComplete_sound {ss : List Stmt} (h : listCanComplete ss = false) :
    (∀ (m : Machine) (steps : Nat) (m' : Machine), m.runProgram steps ss ≠ (.ok .normal, m')) ∧
    ∀ (em : Emission) (selection : Option Expr) (fn : Func), fn.body = .block ss →
      em.body fn.body = (match em.sink with
        | .ret => ss
        | .assign .. => (em.sink.redirectAll? em.span ss).getD ss) ∧
      (∀ (m : Machine) (steps : Nat) (m' : Machine), m.runProgram steps (em.body fn.body) ≠ (.ok .normal, m')) ∧
      ∀ (m : Machine) (steps : Nat) (m' : Machine),
        (Eval.stmt steps (em.invoke selection (.moved fn))).run.run m ≠ (.ok .normal, m') := by
  refine ⟨fun m steps m' => ?_, fun em selection fn hbody => ⟨?_, fun m steps m' => ?_, fun m steps m' => ?_⟩⟩
  · obtain ⟨s, hs, hdiverts⟩ := Diverts.of_listCanComplete h
    exact Eval.Leaves.stmts hs (Eval.leaves_stmt hdiverts) steps m m'
  · rw [hbody, Emission.body, h]
    exact List.append_nil _
  · obtain ⟨s, hs, hdiverts⟩ := em.body_diverts fn.body
    exact Eval.Leaves.stmts hs (Eval.leaves_stmt hdiverts) steps m m'
  · exact Eval.leaves_stmt (em.invoke_diverts selection (.moved fn)) steps m m'

/-- A call whose outcome a finalizer hides, by a return on one way and an error on the other. -/
def finalizedCall : List Stmt :=
  [.tryCatch .none [.expr .none (.call .none (.ident .none "f") [] false)] none
    (some [.ifElse .none (.ident .none "x") (.ret .none (some (.ident .none "y")))
      (some (.block .none [.throwing .none (.ident .none "e")]))])]

theorem listCanComplete_sound_finalizedCall : listCanComplete finalizedCall = false ∧
    (∀ m steps m', Machine.runProgram m steps finalizedCall ≠ (.ok .normal, m')) ∧
    ∀ m steps m', (Eval.stmt steps (Emission.invoke ⟨.none, true, .assign (.ident .none "r") "done", .ident .none "s"⟩
      none (.moved ⟨.none, .arrow, none, [], .block finalizedCall, false, false⟩))).run.run m ≠ (.ok .normal, m') :=
  have h : listCanComplete finalizedCall = false := rfl
  ⟨h, (listCanComplete_sound h).1, ((listCanComplete_sound h).2 _ none _ rfl).2.2⟩

end MatchChain
