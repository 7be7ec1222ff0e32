import MatchChain.Proofs.Eval.Meaning

/-!
# What statements mean

The limits of statements, calls of functions and the remaining expressions, one equation per kind of
node.
-/

set_option autoImplicit false

namespace MatchChain

namespace Eval

open Outcome

variable {α β : Type}

/-! ## Scopes, frames and errors -/

theorem Growing.bind {f : Nat → Eval α} {g : Nat → α → Eval β} (hf : Growing f)
    (hg : ∀ a, Growing (g · a)) : Growing fun n => f n >>= g n :=
  fun _ _ hle => .bind (hf hle) fun a => hg a hle

/-- A run that is another run with a change at its end. -/
theorem Growing.limit_map {f : Nat → Eval α} {g : Nat → Eval β} {m m' : Machine}
    {change : Outcome α → Outcome β} (hf : Growing f)
    (h : ∀ n, Outcome.ofRun? ((g n).run.run m) = (Outcome.ofRun? ((f n).run.run m')).map change) :
    limit g m = (limit f m').map change := by
  refine Option.ext fun r => ?_
  rw [limit_eq_some, Option.map_eq_some_iff]
  constructor
  · rintro ⟨n, hn⟩
    have hlast := hn n (Nat.le_refl n)
    rw [h, Option.map_eq_some_iff] at hlast
    obtain ⟨s, hs, hr⟩ := hlast
    exact ⟨s, limit_eq_some.mpr (hf.ends hs), hr⟩
  · rintro ⟨s, hs, rfl⟩
    obtain ⟨n, hn⟩ := limit_eq_some.mp hs
    exact ⟨n, fun k hk => by rw [h, hn k hk]; rfl⟩

theorem limit_withScope {f : Nat → Eval α} (hf : Growing f) (m : Machine) :
    limit (fun n => withScope (f n)) m = leaving Machine.left (limit f m.entered) :=
  hf.limit_map fun n => ofRun?_withScope (f n) m

theorem limit_withFrame {f : Nat → Eval α} (hf : Growing f) (captured : Nat) (this : Value)
    (m : Machine) :
    limit (fun n => withFrame captured this (f n)) m
      = leaving (·.returned m) (limit f (m.called captured this)) :=
  hf.limit_map fun n => ofRun?_withFrame captured this (f n) m

theorem limit_attempt {f : Nat → Eval α} (hf : Growing f) (m : Machine) :
    limit (fun n => attempt (f n)) m = attempted (limit f m) :=
  hf.limit_map fun n => ofRun?_attempt (f n) m

theorem growing_withScope {f : Nat → Eval α} (hf : Growing f) : Growing fun n => withScope (f n) :=
  fun _ _ hle => .withScope (hf hle)

theorem growing_bindPattern (target : Binding) (v : Value) (isMutable : Bool) :
    Growing (bindPattern · target v isMutable) :=
  fun _ _ hle => ((allSteady hle).bindPattern (D := Machine.anyName) v isMutable fun _ _ => trivial).extended

theorem growing_params (ps : List Param) (values : List Value) : Growing (params · ps values) :=
  fun _ _ hle => ((allSteady hle).params ps values).extended

theorem growing_prop (fs : Fields) (p : Property) : Growing (prop · fs p) :=
  fun _ _ hle => ((allSteady hle).prop (D := Machine.anyName) fs p).extended

theorem growing_catchBody (c : CatchClause) (v : Value) : Growing (catchBody · c v) :=
  fun _ _ hle => ((allSteady hle).catchBody c v).extended

theorem growing_recover (result : Except EvalError Flow) (c : Option CatchClause) :
    Growing fun n => recover (catchBody n) result c :=
  fun _ _ hle => (Steady.recover (D := Machine.anyName) (allSteady hle).catchBody result c).extended

/-! ## Lists of statements -/

/-- Statements without declarations of functions hoist nothing. -/
theorem hoist_eq_pure {ss : List Stmt} (h : ∀ s ∈ ss, ∀ span fn, s ≠ .funcDecl span fn) :
    hoist ss = pure ⟨⟩ := by
  induction ss with
  | nil => rfl
  | cons s ss ih =>
    have hrest : hoist ss = pure ⟨⟩ := ih fun t ht => h t (List.mem_cons_of_mem s ht)
    have hs := h s List.mem_cons_self
    cases s with
    | funcDecl span fn => exact absurd rfl (hs span fn)
    | _ => exact hrest

theorem limit_stmts_hoist (ss : List Stmt) (m : Machine) :
    limit (stmts · ss) m = (Outcome.ofRun? ((hoist ss).run.run m)).bind (andThen fun _ =>
      limit fun n => sequence (stmt n) ss) := by
  rw [limit_succ]
  simp only [Eval.stmts]
  exact limit_const_bind _ _ m

theorem limit_stmts {ss : List Stmt} (h : ∀ s ∈ ss, ∀ span fn, s ≠ .funcDecl span fn) :
    limit (stmts · ss) = limit fun n => sequence (stmt n) ss := by
  rw [limit_succ]
  simp only [Eval.stmts, hoist_eq_pure h]
  rfl

theorem limit_sequence_nil : limit (fun n => sequence (stmt n) []) = fun m => some (.ok .normal, m) :=
  limit_pure _

/-- Statements after one that ended so. -/
noncomputable def following (ss : List Stmt) : Flow → Machine → Option (Outcome Flow)
  | .normal, m => limit (fun n => sequence (stmt n) ss) m
  | flow, m => some (.ok flow, m)

theorem limit_sequence_cons (s : Stmt) (ss : List Stmt) (m : Machine) :
    limit (fun n => sequence (stmt n) (s :: ss)) m
      = (limit (stmt · s) m).bind (andThen (following ss)) := by
  simp only [sequence]
  rw [(growing_stmt s).limit_bind]
  congr 2
  funext flow m'
  cases flow with
  | normal => rfl
  | ret | breakTo | continueTo => exact limit_const _ m'

/-! ## Statements -/

theorem limit_stmt_expr (span : Span) (e : Expr) (m : Machine) :
    limit (stmt · (.expr span e)) m
      = (limit (expr · e) m).bind (andThen fun _ m' => some (.ok .normal, m')) := by
  rw [limit_succ]
  simp only [Eval.stmt]
  rw [(growing_expr e).limit_bind]
  simp only [limit_pure]

theorem limit_stmt_ret (span : Span) (e : Expr) (m : Machine) :
    limit (stmt · (.ret span (some e))) m
      = (limit (expr · e) m).bind (andThen fun v m' => some (.ok (.ret v), m')) := by
  rw [limit_succ]
  simp only [Eval.stmt]
  rw [(growing_expr e).limit_bind]
  simp only [limit_pure]

theorem limit_stmt_ret_none (span : Span) (m : Machine) :
    limit (stmt · (.ret span none)) m = some (.ok (.ret .undefined), m) := by
  rw [limit_succ]
  exact limit_const _ m

/-- The other branch of a condition, which may be missing. -/
noncomputable def otherwise : Option Stmt → Machine → Option (Outcome Flow)
  | none, m => some (.ok .normal, m)
  | some s, m => limit (stmt · s) m

theorem limit_stmt_if (span : Span) (cond : Expr) (s : Stmt) (other : Option Stmt) (m : Machine) :
    limit (stmt · (.ifElse span cond s other)) m
      = (limit (expr · cond) m).bind (andThen fun v m' =>
          if v.isTruthy then limit (stmt · s) m' else otherwise other m') := by
  rw [limit_succ]
  simp only [Eval.stmt]
  rw [(growing_expr cond).limit_bind]
  congr 2
  funext v m'
  split
  · rfl
  · cases other with
    | none => exact limit_const _ m'
    | some s => rfl

theorem limit_stmt_block (span : Span) (body : List Stmt) (m : Machine) :
    limit (stmt · (.block span body)) m = leaving Machine.left (limit (stmts · body) m.entered) := by
  rw [limit_succ]
  simp only [Eval.stmt]
  exact limit_withScope (growing_stmts body) m

/-- A labelled statement that is no loop. -/
theorem limit_stmt_labeled {body : Stmt} (h : ∀ span cond inner, body ≠ .whileLoop span cond inner)
    (span : Span) (label : String) (m : Machine) :
    limit (stmt · (.labeled span label body)) m
      = (limit (stmt · body) m).bind (andThen fun flow m' =>
          some (.ok (flow.afterLabel label), m')) := by
  have hstep : ∀ n, stmt (n + 1) (.labeled span label body)
      = stmt n body >>= fun flow => pure (flow.afterLabel label) := by
    intro n
    cases body with
    | whileLoop span cond inner => exact absurd rfl (h span cond inner)
    | _ => rfl
  rw [limit_succ]
  simp only [hstep]
  rw [(growing_stmt _).limit_bind]
  simp only [limit_pure]

theorem limit_stmt_loop (span : Span) (cond : Expr) (body : Stmt) :
    limit (stmt · (.whileLoop span cond body)) = limit (loop · cond body none) := by
  rw [limit_succ]
  rfl

theorem limit_stmt_labeledLoop (span inner : Span) (label : String) (cond : Expr) (body : Stmt) :
    limit (stmt · (.labeled span label (.whileLoop inner cond body)))
      = limit (loop · cond body (some label)) := by
  rw [limit_succ]
  rfl

theorem limit_stmt_break (span : Span) (label : Option String) (m : Machine) :
    limit (stmt · (.breakTo span label)) m = some (.ok (.breakTo label), m) := by
  rw [limit_succ]
  simp only [Eval.stmt]
  rw [limit_pure]

theorem limit_stmt_throw (span : Span) (e : Expr) (m : Machine) :
    limit (stmt · (.throwing span e)) m
      = (limit (expr · e) m).bind (andThen fun v m' => some (.error (.thrown v span), m')) := by
  rw [limit_succ]
  simp only [Eval.stmt]
  rw [(growing_expr e).limit_bind]
  congr 2
  funext v m'
  exact limit_const _ m'

theorem limit_bindPattern_ident (span : Span) (x : String) (v : Value) (isMutable : Bool)
    (m : Machine) :
    limit (bindPattern · (.ident span x) v isMutable) m
      = some (.ok ⟨⟩, m.defined m.env.current x ⟨v, isMutable⟩) := by
  rw [limit_succ]
  simp only [Eval.bindPattern]
  exact limit_const _ m

/-- A declaration of one target with an initial value. -/
theorem limit_stmt_declare (span inner : Span) (kind : VarKind) (target : Binding) (e : Expr)
    (m : Machine) :
    limit (stmt · (.varDecl span kind [⟨inner, target, some e⟩])) m
      = (limit (expr · e) m).bind (andThen fun v m' =>
          (limit (bindPattern · target v (kind != .constVar)) m').bind (andThen fun _ m'' =>
            some (.ok .normal, m''))) := by
  have hstep : ∀ n, stmt (n + 1) (.varDecl span kind [⟨inner, target, some e⟩])
      = expr n e >>= fun v => bindPattern n target v (kind != .constVar) >>= fun _ =>
          pure .normal := by
    intro n
    simp [Eval.stmt]
  rw [limit_succ]
  simp only [hstep]
  rw [(growing_expr e).limit_bind]
  congr 2
  funext v m'
  rw [(growing_bindPattern target v _).limit_bind]
  simp only [limit_pure]

/-- A declaration of a name without an initial value. -/
theorem limit_stmt_declare_none (span inner nameSpan : Span) (kind : VarKind) (x : String)
    (m : Machine) :
    limit (stmt · (.varDecl span kind [⟨inner, .ident nameSpan x, none⟩])) m
      = some (.ok .normal, m.defined m.env.current x ⟨.undefined, kind != .constVar⟩) := by
  have hstep : ∀ n, stmt (n + 1) (.varDecl span kind [⟨inner, .ident nameSpan x, none⟩])
      = bindPattern n (.ident nameSpan x) .undefined (kind != .constVar) >>= fun _ =>
          pure .normal := by
    intro n
    simp [Eval.stmt]
  rw [limit_succ]
  simp only [hstep]
  rw [(growing_bindPattern _ _ _).limit_bind, limit_bindPattern_ident]
  simp only [limit_pure]
  rfl

/-! ## Errors and finalizers -/

/-- What becomes of a block that ended so under a catch clause, if there is one. -/
noncomputable def caughtBy : Option CatchClause → Outcome Flow → Option (Outcome Flow)
  | some c, (.error e, m) =>
    if e.isCatchable then
      (Outcome.ofRun? ((caught e).run.run m)).bind (andThen fun v m' =>
        leaving Machine.left (limit (catchBody · c v) m'.entered))
    else some (.error e, m)
  | _, r => some r

theorem caughtBy_error {e : EvalError} (he : e.isCatchable = true) (c : CatchClause) (m : Machine) :
    caughtBy (some c) (.error e, m) = (Outcome.ofRun? ((caught e).run.run m)).bind (andThen fun v m' =>
      leaving Machine.left (limit (catchBody · c v) m'.entered)) := if_pos he

/-- What comes before a finalizer counts if the finalizer ends normally. -/
def unlessEnded (result : Except EvalError Flow) : Flow → Machine → Option (Outcome Flow)
  | .normal, m => some (result, m)
  | flow, m => some (.ok flow, m)

/-- What becomes of a block that ended so before a finalizer, if there is one. -/
noncomputable def finishedBy : Option (List Stmt) → Outcome Flow → Option (Outcome Flow)
  | none, r => some r
  | some body, r =>
    (leaving Machine.left (limit (stmts · body) r.2.entered)).bind (andThen (unlessEnded r.1))

/-- An error is always caught as a value. -/
theorem run_caught (e : EvalError) (m : Machine) : ∃ v m', (caught e).run.run m = (.ok v, m') := by
  unfold caught
  split
  · exact ⟨_, _, rfl⟩
  · exact ⟨_, _, rfl⟩

theorem limit_recover (result : Except EvalError Flow) (handler : Option CatchClause) (m : Machine) :
    limit (fun n => recover (catchBody n) result handler) m = attempted (caughtBy handler (result, m)) := by
  cases handler with
  | none => cases result <;> exact limit_const _ m
  | some c =>
    cases result with
    | ok flow => exact limit_const _ m
    | error e =>
      simp only [recover, caughtBy]
      split
      · obtain ⟨v, m', hcaught⟩ := run_caught e m
        rw [limit_const_bind, hcaught]
        simp only [Outcome.ofRun?, Option.bind_some, andThen_ok]
        rw [limit_attempt (growing_withScope (growing_catchBody c v)),
          limit_withScope (growing_catchBody c v)]
      · exact limit_const _ m

theorem limit_finish (result : Except EvalError Flow) (finalizer : Option (List Stmt)) (m : Machine) :
    limit (fun n => finish (stmts n) result finalizer) m = finishedBy finalizer (result, m) := by
  have hlift : ∀ m', Outcome.ofRun? ((lift result).run.run m') = some (result, m') := by
    intro m'
    rw [run_lift]
    cases result <;> rfl
  cases finalizer with
  | none => exact (limit_const _ m).trans (hlift m)
  | some body =>
    simp only [finish, finishedBy]
    rw [(growing_withScope (growing_stmts body)).limit_bind, limit_withScope (growing_stmts body)]
    congr 2
    funext flow m'
    cases flow with
    | normal => exact (limit_const _ m').trans (hlift m')
    | ret | breakTo | continueTo => exact limit_const _ m'

/-- A block with what catches its errors and what runs at its end. -/
theorem limit_stmt_tryCatch (span : Span) (body : List Stmt) (handler : Option CatchClause)
    (finalizer : Option (List Stmt)) (m : Machine) :
    limit (stmt · (.tryCatch span body handler finalizer)) m
      = ((limit (stmt · (.block span body)) m).bind (caughtBy handler)).bind (finishedBy finalizer) := by
  have hstep : ∀ n, stmt (n + 2) (.tryCatch span body handler finalizer)
      = attempt (withScope (stmts n body)) >>= fun result =>
          recover (catchBody n) result handler >>= fun result => finish (stmts n) result finalizer :=
    fun n => by simp only [Eval.stmt, Eval.tryCatch]
  rw [limit_succ, limit_succ]
  simp only [hstep]
  have hattempt : Growing fun n => attempt (withScope (stmts n body)) :=
    fun _ _ hle => .attempt (growing_withScope (growing_stmts body) hle)
  rw [hattempt.limit_bind, limit_attempt (growing_withScope (growing_stmts body)),
    limit_withScope (growing_stmts body), limit_stmt_block]
  rcases leaving Machine.left (limit (stmts · body) m.entered) with _ | ⟨r, m'⟩
  · rfl
  · simp only [attempted, Option.map_some, Option.bind_some, andThen_ok]
    rw [(growing_recover r handler).limit_bind, limit_recover]
    rcases caughtBy handler (r, m') with _ | ⟨r', m''⟩
    · rfl
    · exact limit_finish r' finalizer m''

/-- The body of a catch clause, in the scope of its parameter. -/
theorem limit_catchBody_param (target : Binding) (body : List Stmt) (v : Value) (m : Machine) :
    limit (catchBody · ⟨some target, body⟩ v) m
      = (limit (bindPattern · target v true) m).bind (andThen fun _ => limit (stmts · body)) := by
  have hstep : ∀ n, catchBody (n + 1) ⟨some target, body⟩ v
      = bindPattern n target v true >>= fun _ => stmts n body := by
    intro n
    rw [Eval.catchBody]
    rfl
  rw [limit_succ]
  simp only [hstep]
  rw [(growing_bindPattern _ _ _).limit_bind]

theorem limit_catchBody_none (body : List Stmt) (v : Value) :
    limit (catchBody · ⟨none, body⟩ v) = limit (stmts · body) := by
  have hstep : ∀ n, catchBody (n + 1) ⟨none, body⟩ v = stmts n body := by
    intro n
    rw [Eval.catchBody]
    rfl
  rw [limit_succ]
  simp only [hstep]

theorem limit_catchBody (span : Span) (x : String) {body : List Stmt}
    (h : ∀ s ∈ body, ∀ span fn, s ≠ .funcDecl span fn) (v : Value) (m : Machine) :
    limit (catchBody · ⟨some (.ident span x), body⟩ v) m
      = limit (fun n => sequence (stmt n) body) (m.defined m.env.current x ⟨v, true⟩) := by
  rw [limit_catchBody_param, limit_bindPattern_ident, limit_stmts h]
  rfl

/-! ## Expressions -/

theorem limit_expr_or (span : Span) (left right : Expr) (m : Machine) :
    limit (expr · (.binary span .or left right)) m
      = (limit (expr · left) m).bind (andThen fun a m' =>
          if a.isTruthy then some (.ok a, m') else limit (expr · right) m') := by
  rw [limit_expr_binary]
  congr 2
  funext a m'
  cases h : a.isTruthy <;> simp [operated, BinaryOp.keepsLeft?, h]

theorem limit_expr_assign (span inner : Span) (x : String) (e : Expr) (m : Machine) :
    limit (expr · (.assign span .assign (.ident inner x) e)) m
      = (limit (expr · e) m).bind (andThen fun v m' =>
          (Outcome.ofRun? ((assign x v span).run.run m')).bind (andThen fun _ m'' =>
            some (.ok v, m''))) := by
  have hstep : ∀ n, expr (n + 3) (.assign span .assign (.ident inner x) e)
      = expr (n + 1) e >>= fun v => assign x v span >>= fun _ => pure v := by
    intro n
    simp [Eval.expr, Eval.assignment, Eval.place, AssignOp.binary?, writePlace]
  rw [limit_succ, limit_succ, limit_succ]
  simp only [hstep]
  rw [limit_succ (expr · e), (growing_expr e).succ.limit_bind]
  congr 2
  funext v m'
  rw [limit_const_bind]
  simp only [limit_pure]

/-- A text with one hole. -/
theorem limit_expr_template (span : Span) (texts : List TemplateText) (hole : Expr) (m : Machine) :
    limit (expr · (.template span texts [hole])) m
      = (limit (expr · hole) m).bind (andThen fun v m' =>
          some (.ok (.str (weave texts [m'.heap.text v])), m')) := by
  have hstep : ∀ n, expr (n + 1) (.template span texts [hole])
      = expr n hole >>= fun v => text v >>= fun shown => pure (.str (weave texts [shown])) := by
    intro n
    simp [Eval.expr]
  rw [limit_succ]
  simp only [hstep]
  rw [(growing_expr hole).limit_bind]
  congr 2
  funext v m'
  rw [limit_const, run_bind_ok (run_text v m')]
  rfl

theorem limit_expr_object (span : Span) (ps : List Property) (m : Machine) :
    limit (expr · (.object span ps)) m
      = (limit (fun n => ps.foldlM (prop n) []) m).bind (andThen fun fs m' =>
          Outcome.ofRun? ((newObject fs).run.run m')) := by
  rw [limit_succ]
  simp only [Eval.expr]
  have hprops : Growing fun n => ps.foldlM (prop n) [] :=
    fun _ _ hle => (Steady.foldlM (D := Machine.anyName) (allSteady hle).prop ps []).extended
  rw [hprops.limit_bind]
  congr 2
  funext fs m'
  exact limit_const _ m'

theorem limit_props_cons (p : Property) (ps : List Property) (fs : Fields) (m : Machine) :
    limit (fun n => (p :: ps).foldlM (prop n) fs) m
      = (limit (prop · fs p) m).bind (andThen fun fs' =>
          limit fun n => ps.foldlM (prop n) fs') := by
  simp only [List.foldlM_cons]
  rw [(growing_prop fs p).limit_bind]

theorem limit_prop_init {key : PropKey} {name : String} (hkey : key = .ident name ∨ key = .str name)
    (span : Span) (e : Expr) (shorthand : Bool) (fs : Fields) (m : Machine) :
    limit (prop · fs (.init span key e shorthand)) m
      = (limit (expr · e) m).bind (andThen fun v m' => some (.ok (fs.set name v), m')) := by
  have hstep : ∀ n, prop (n + 2) fs (.init span key e shorthand)
      = expr (n + 1) e >>= fun v => pure (fs.set name v) := by
    intro n
    rcases hkey with rfl | rfl <;> simp [Eval.prop, Eval.propKey]
  rw [limit_succ, limit_succ]
  simp only [hstep]
  rw [limit_succ (expr · e), (growing_expr e).succ.limit_bind]
  simp only [limit_pure]

/-! ## Calls -/

/-- A function that is written where it is called. -/
theorem limit_callee_func (span : Span) (fn : Func) (m : Machine) :
    limit (callee · (.func span fn)) m
      = some (.ok (some (.function m.heap.size, .undefined)), m.allocated (.closure (m.closure fn))) := by
  have hstep : ∀ n, callee (n + 3) (.func span fn)
      = newClosure fn >>= fun v => pure (some (v, .undefined)) := by
    intro n
    simp [Eval.callee, Eval.link, Eval.expr]
  rw [limit_succ, limit_succ, limit_succ]
  simp only [hstep]
  rw [limit_const, run_bind_ok (run_newClosure fn m)]
  rfl

/-- A call of a function of the program. -/
theorem limit_call_closure {m : Machine} {cell : Nat} {c : Closure}
    (h : m.heap.cells[cell]? = some (.closure c)) (this : Value) (values : List Value)
    (span : Span) :
    limit (call · (.function cell) this values span) m
      = limit (callClosure · c this values span) m := by
  have hstep : ∀ n, (call (n + 1) (.function cell) this values span).run.run m
      = (callClosure n c this values span).run.run m := by
    intro n
    rw [Eval.call, run_bind_ok (run_get m)]
    simp only [h]
  rw [limit_succ]
  refine Option.ext fun r => ?_
  simp only [limit_eq_some, Ends, hstep]

theorem limit_callClosure {c : Closure} {body : List Stmt} (hbody : c.fn.body = .block body)
    (this : Value) (values : List Value) (span : Span) (m : Machine) :
    limit (callClosure · c this values span) m
      = (Outcome.ofRun? ((checkCall c span).run.run m)).bind (andThen fun _ m' =>
          leaving (·.returned m') ((limit (params · c.fn.params values)
            (m'.called c.scope (c.this.getD this))).bind (andThen fun _ m'' =>
              (limit (stmts · body) m'').bind (andThen fun flow m₃ =>
                some (.ok flow.result, m₃))))) := by
  rw [limit_succ]
  simp only [Eval.callClosure, hbody]
  rw [limit_const_bind]
  congr 2
  funext _ m'
  have hrun : Growing fun n => params n c.fn.params values >>= fun _ =>
      stmts n body >>= fun flow => pure flow.result :=
    (growing_params _ values).bind fun _ => (growing_stmts body).bind fun _ => growing_const _
  rw [limit_withFrame hrun, (growing_params _ values).limit_bind]
  congr 3
  funext _ m''
  rw [(growing_stmts body).limit_bind]
  simp only [limit_pure]

/-- One plain parameter and its argument. -/
theorem limit_params_single (span inner : Span) (x : String) (v : Value) (m : Machine) :
    limit (params · [⟨span, .ident inner x, none, false⟩] [v]) m
      = some (.ok ⟨⟩, m.defined m.env.current x ⟨v, true⟩) := by
  have hdefault : ∀ n, withDefault (n + 1) v none = pure v := fun n => by cases v <;> rfl
  have hstep : ∀ n, params (n + 2) [⟨span, .ident inner x, none, false⟩] [v]
      = bindPattern (n + 1) (.ident inner x) v true := by
    intro n
    simp [Eval.params, argument, hdefault]
  rw [limit_succ, limit_succ]
  simp only [hstep]
  rw [← limit_succ (bindPattern · (.ident inner x) v true), limit_bindPattern_ident]

/-- A new error object. -/
theorem limit_expr_constructError {m : Machine} {name : String} {cell : Nat} {receiver : Value}
    (hname : m.lookup? name = some (.function cell))
    (hcell : m.heap.cells[cell]? = some (.native .error receiver)) {e : Expr} {v : Value}
    (hplain : ∀ span inner, e ≠ .spread span inner)
    (he : limit (expr · e) m = some (.ok v, m)) (span inner : Span) :
    limit (expr · (.construct span (.ident inner name) [e])) m
      = Outcome.ofRun? ((callNative .error .undefined [v] span).run.run m) := by
  have hargs : limit (args · [e]) m = some (.ok [v], m) := by
    rw [limit_args_cons hplain, he]
    simp only [Option.bind_some, andThen_ok, limit_args_nil]
  rw [limit_succ]
  simp only [Eval.expr]
  rw [limit_succ]
  simp only [Eval.construct]
  rw [(growing_expr _).limit_bind, limit_expr_ident hname]
  simp only [Option.bind_some, andThen_ok]
  rw [(growing_args _).limit_bind, hargs]
  simp only [Option.bind_some, andThen_ok]
  rw [limit_const_bind, run_get]
  show limit _ m = _
  simp only [hcell]
  exact limit_const _ m

end Eval

end MatchChain
