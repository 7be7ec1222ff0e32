import MatchChain.Proofs.Code.Naming
import MatchChain.Proofs.Code.NoMatch
import MatchChain.Proofs.Match.WellFormed
import MatchChain.Proofs.Simulation.Closed

/-!
# Generated code refines first-match dispatch

The code that a match expression becomes does in its context what `MatchExpr.dispatch` does: it
evaluates the subject once and first, tries the branches in order, calls the guard of a branch only if
one of its alternatives accepts the subject, and delivers what the first handler gives that is reached.
Nothing of a later branch runs. This is said of runs from machines that agree, for code whose handlers
are called, not moved.
-/

set_option autoImplicit false

namespace MatchChain

open Eval Outcome

/-! ## The shape of generated code -/

namespace MatchExpr

variable {e : MatchExpr} {options : GenerateOptions} {ordinal : Nat} {code : Generated}

/-- How code is emitted for a subject that is read once, into the `n`-th name. -/
def emission (e : MatchExpr) (options : GenerateOptions) (sink : Sink) (ordinal n : Nat) : Emission :=
  { span := e.span, nullSafe := options.nullSafe, sink, subject := .ident e.span (FreshNames.name ordinal n) }

/-- The code of the branches and of what follows them. -/
def Body (e : MatchExpr) (em : Emission) (ordinal n : Nat) (body : List Stmt) : Prop :=
  ∃ stmts always,
    em.branches (e.branches.zip (e.branches.map (·.handler.plan em.span em.sink.targetNames)))
      = .ok (stmts, always) ∧
    body = stmts ++ if always then []
      else em.rest e (FreshNames.name ordinal (n + 1)) (FreshNames.name ordinal (n + 2))

/-- The labelled block that reads the subject into a name and delivers the result. -/
def labeled (e : MatchExpr) (label cache : String) (body : List Stmt) : Stmt :=
  .labeled e.span label (.block e.span
    (Emission.declare e.span .constVar (.ident e.span cache) (some e.subject) :: body))

theorem Body.of_bind (em : Emission) (n : Nat) (k : List Stmt → Generated)
    (h : (em.branches (e.branches.zip (e.branches.map (·.handler.plan em.span em.sink.targetNames)))
      >>= fun r => Except.ok (k (r.1 ++ if r.2 then []
        else em.rest e (FreshNames.name ordinal (n + 1)) (FreshNames.name ordinal (n + 2))))) = .ok code) :
    ∃ body, e.Body em ordinal n body ∧ code = k body := by
  cases hbranches : em.branches (e.branches.zip
      (e.branches.map (·.handler.plan em.span em.sink.targetNames))) with
  | error fault =>
    rw [hbranches] at h
    cases h
  | ok r =>
    rw [hbranches] at h
    cases h
    exact ⟨_, ⟨r.1, r.2, hbranches, rfl⟩, rfl⟩

/-- The parts of code for a value. -/
theorem generate_value (hcode : e.generate options .value ordinal = .ok code)
    (hcached : options.cost.isCheap e.subject = false) :
    ∃ body, e.Body (e.emission options .ret ordinal 0) ordinal 0 body ∧
      code = .expr (Emission.callAtOnce e.span (some (FreshNames.name ordinal 0, e.subject)) body) := by
  simp only [generate_eq, needsCache_of_not_isCheap hcached] at hcode
  cases hfault : e.handlerFault? with
  | some fault =>
    rw [hfault] at hcode
    cases hcode
  | none =>
    cases hawait : e.awaitFault? with
    | some fault =>
      rw [hfault, hawait] at hcode
      cases hcode
    | none =>
      rw [hfault, hawait] at hcode
      exact Body.of_bind (e.emission options .ret ordinal 0) 0 (fun body =>
        .expr (Emission.callAtOnce e.span (some (FreshNames.name ordinal 0, e.subject)) body)) hcode

/-- The parts of code for a statement, where `temp` is the name that the result goes through if it goes
    through one, and `n` the number of the label. -/
theorem generate_statement (temp : Option String) (n : Nat) {placement : Placement} {target : Expr}
    (hcode : e.generate options placement ordinal = .ok code)
    (hcached : options.cost.isCheap e.subject = false) (hstatement : placement.isStatement = true)
    (htemp : ({ ordinal } : FreshNames).mintIf placement.needsTemp = (temp, ⟨ordinal, n⟩))
    (htarget : placement.target? e.span temp = some target) :
    ∃ body, e.Body (e.emission options (.assign target (FreshNames.name ordinal n)) ordinal (n + 1))
        ordinal (n + 1) body ∧
      code = .stmts (Emission.place e.span (e.labeled (FreshNames.name ordinal n)
        (FreshNames.name ordinal (n + 1)) body) temp placement) := by
  simp only [generate_eq, needsCache_of_not_isCheap hcached] at hcode
  cases hfault : e.handlerFault? with
  | some fault =>
    rw [hfault] at hcode
    cases hcode
  | none =>
    rw [hfault] at hcode
    simp only [hstatement, htemp, Placement.sink, FreshNames.mintIf_true, htarget] at hcode
    exact Body.of_bind
      (e.emission options (.assign target (FreshNames.name ordinal n)) ordinal (n + 1)) (n + 1)
      (fun body => .stmts (Emission.place e.span (e.labeled (FreshNames.name ordinal n)
        (FreshNames.name ordinal (n + 1)) body) temp placement)) hcode

end MatchExpr

/-! ## Generated statements declare no functions -/

namespace Emission

variable {em : Emission}

theorem invoke_ne_funcDecl (selection : Option Expr) (plan : Invocation) (span : Span) (fn : Func) :
    em.invoke selection plan ≠ .funcDecl span fn := by
  cases plan <;> exact nofun

theorem branches_ne_funcDecl : ∀ {bs : List (Branch × Invocation)} {stmts : List Stmt} {always : Bool},
    em.branches bs = .ok (stmts, always) → ∀ s ∈ stmts, ∀ span fn, s ≠ .funcDecl span fn := by
  intro bs
  induction bs with
  | nil =>
    intro stmts always h
    cases h
    exact nofun
  | cons b bs ih =>
    intro stmts always h
    obtain ⟨_, ⟨_, rfl, rfl⟩ | ⟨test, others, _, hothers, rfl⟩⟩ := branches_cons h
    · intro s hs
      rw [List.mem_singleton.mp hs]
      exact invoke_ne_funcDecl _ _
    · intro s hs
      rcases List.mem_cons.mp hs with rfl | hs
      · exact nofun
      · exact ih hothers s hs

theorem rest_ne_funcDecl (e : MatchExpr) (shown error : String) :
    ∀ s ∈ em.rest e shown error, ∀ span fn, s ≠ .funcDecl span fn := by
  unfold rest
  split
  · intro s hs
    rw [List.mem_singleton.mp hs]
    exact invoke_ne_funcDecl _ _
  · split
    · exact nofun
    · unfold noMatch declare
      simp

end Emission

theorem MatchExpr.Body.ne_funcDecl {e : MatchExpr} {em : Emission} {ordinal n : Nat} {body : List Stmt}
    (h : e.Body em ordinal n body) : ∀ s ∈ body, ∀ span fn, s ≠ .funcDecl span fn := by
  obtain ⟨stmts, always, hstmts, rfl⟩ := h
  intro s hs
  rcases List.mem_append.mp hs with hs | hs
  · exact Emission.branches_ne_funcDecl hstmts s hs
  · cases always with
    | true => cases hs
    | false => exact Emission.rest_ne_funcDecl e _ _ s hs

/-! ## What the body delivers -/

/-- What is asked of a match expression: it is one that reading gives, its subject, guards and
    handlers are expressions within the names, and its handlers are called. -/
structure MatchExpr.CalledWithin (names : String → Prop) (e : MatchExpr) : Prop where
  wellFormed : e.WellFormed
  subject : e.subject.Within names
  branches : ∀ b ∈ e.branches, b.CalledWithin names
  fallback : ∀ h ∈ e.fallback, h.CalledWithin names

/-- The program's names include the globals that generated code uses and none of the names that are
    made for the match expression, which belong to the generated code. -/
structure Apart (names own : String → Prop) (ordinal : Nat) : Prop where
  globals : ∀ x ∈ globalNames, names x
  fresh : ∀ n, ¬ names (FreshNames.name ordinal n)
  own : ∀ n, own (FreshNames.name ordinal n)

/-- The built-in globals are in place wherever dispatch tries a branch of an expression, from where
    its subject has a value. -/
def MatchExpr.KeepsGlobals (e : MatchExpr) (v : Value) (m : Machine) : Prop :=
  ∀ m', Tries e.span v e.branches m m' → m'.HasGlobals

variable {names own : String → Prop} {w : World} {m₁ m₂ : Machine} {e : MatchExpr}
  {options : GenerateOptions} {ordinal n : Nat} {body : List Stmt} {a : Nat}

/-- The code of the branches and of what follows them delivers what dispatch selects. -/
theorem Stage.delivers {v₁ v₂ : Value} {sink : Sink}
    (h : Stage names w (FreshNames.name ordinal n) v₁ v₂ m₁ m₂)
    (hready : sink.Ready names own a m₁) (hbody : e.Body (e.emission options sink ordinal n) ordinal n body)
    (he : e.CalledWithin names) (hapart : Apart names own ordinal) (hsafe : options.nullSafe = true)
    (hglobals : e.KeepsGlobals v₂ m₂) :
    Related names own w (fun w m₁ _ flow v => sink.Delivered w a m₁ v flow) m₁ m₂
      (limit (fun n => sequence (stmt n) body) m₁) (limit (e.select · v₂ e.branches) m₂) := by
  obtain ⟨stmts, always, hstmts, rfl⟩ := hbody
  have hem : (e.emission options sink ordinal n).Reading (FreshNames.name ordinal n) := ⟨hsafe, rfl⟩
  have hne : ∀ {j k : Nat}, j ≠ k → FreshNames.name ordinal j ≠ FreshNames.name ordinal k :=
    fun hjk heq => hjk (FreshNames.name_inj heq).2
  refine branches rfl hem hapart.globals (fun h' hready' hm => ?_) hstmts
    he.wellFormed.alternatives he.branches h hready hglobals
  exact h'.otherwise rfl hem hapart.globals hm hready' he.fallback (hapart.fresh _) (hapart.fresh _)
    (hapart.own _) (hapart.own _) (hne (by omega)) (hne (by omega)) (hne (by omega))

/-! ## Statements -/

/-- A stage is set when the subject's value is bound to its name. -/
theorem Aligned.stage {v₁ v₂ : Value} (h : Aligned names w m₁ m₂) {x : String} (hx : ¬ names x)
    (hv : w.Rel v₁ v₂) (isMutable : Bool) :
    Stage names w x v₁ v₂ (m₁.defined m₁.env.current x ⟨v₁, isMutable⟩) m₂ where
  aligned := ⟨h.agree.defined_left hx _ _, h.chained, h.this, h.room⟩
  hidden := hx
  subject := ⟨_, _, Scopes.owner?_define_self h.agree.ordered₁ h.current_lt x _⟩
  value := hv

/-- The value of the subject, then what dispatch selects for it. -/
noncomputable def MatchExpr.selected (e : MatchExpr) (m : Machine) : Option (Outcome Value) :=
  (limit (expr · e.subject) m).bind (andThen fun v m' => limit (e.select · v e.branches) m')

/-- The labelled block assigns what dispatch selects to a name of the generated code. -/
theorem Aligned.labeled (h : Aligned names w m₁ m₂) {y label : String} (hy : ¬ names y) (hyown : own y)
    (howner : m₁.owner? y = some (a, ⟨.undefined, true⟩)) (hne : y ≠ FreshNames.name ordinal n)
    (hbody : e.Body (e.emission options (.assign (.ident e.span y) label) ordinal n) ordinal n body)
    (he : e.CalledWithin names) (hapart : Apart names own ordinal) (hsafe : options.nullSafe = true)
    (hglobals : ∀ v m, limit (expr · e.subject) m₂ = some (.ok v, m) → e.KeepsGlobals v m) :
    Related names own w (fun w m₁ _ flow v => flow = .normal ∧
        ∃ u, m₁.scopes.binding a y = some ⟨u, true⟩ ∧ w.Rel u v) m₁ m₂
      (limit (stmt · (e.labeled label (FreshNames.name ordinal n) body)) m₁) (e.selected m₂) := by
  let cache := FreshNames.name ordinal n
  have hwithin : Related names own (w.withChain m₁.scopes.count m₂.env.current)
      (fun w m₁ _ flow v => (Sink.assign (.ident e.span y) label).Delivered w a m₁ v flow) m₁.entered m₂
      (limit (fun n => sequence (stmt n) (Emission.declare e.span .constVar (.ident e.span cache)
        (some e.subject) :: body)) m₁.entered) (e.selected m₂) := by
    have hsubject := h.entered_left.run (growing_expr e.subject) (growing_expr e.subject) fun n =>
      (simulated names n).expr h.entered_left.chained he.subject
    unfold MatchExpr.selected Emission.declare
    rw [limit_sequence_cons, limit_stmt_declare, bind_andThen_bind]
    refine hsubject.withEnd.bind (fun _ hx => hx.elim) fun w' n₁ n₂ v₁ v₂ hg h₁ h₂ hv => ?_
    have hn := h.entered_left.moved hg h₁ h₂
    rw [limit_bindPattern_ident]
    simp only [Option.bind_some, andThen_ok, following]
    have hstage := hn.stage (hapart.fresh n) hv.1 (VarKind.constVar != .constVar)
    have hready : (Sink.assign (.ident e.span y) label).Ready names own a
        (n₁.defined n₁.env.current cache ⟨v₁, VarKind.constVar != .constVar⟩) := by
      refine .assign hy hyown ?_
      exact (Scopes.owner?_define_of_ne hn.agree.ordered₁ hne _ _ _).trans
        ((h.entered_left.owner? hg h₁ hy).trans ((h.owner?_entered y).trans howner))
    have hrun := hstage.delivers hready hbody he hapart hsafe (hglobals v₂ n₂ hv.2)
    exact .after (hn.agree.defined_own (hapart.fresh n) (hapart.own n) _ _) (n₁.samePlace_defined ..)
      (.refl n₂) hrun
  have hplain : ∀ s ∈ Emission.declare e.span .constVar (.ident e.span cache) (some e.subject) :: body,
      ∀ span fn, s ≠ .funcDecl span fn := by
    intro s hs
    rcases List.mem_cons.mp hs with rfl | hs
    · rintro _ _ ⟨⟩
    · exact hbody.ne_funcDecl s hs
  have hblock := Related.block h hplain (fun _ _ _ _ _ hd => hd.left) hwithin e.span
  unfold MatchExpr.labeled
  rw [limit_stmt_labeled (by rintro _ _ _ ⟨⟩)]
  generalize limit (stmt · (.block e.span _)) m₁ = o₁ at hblock ⊢
  generalize e.selected m₂ = o₂ at hblock ⊢
  cases hblock with
  | never => exact .never
  | raised hg h₁ h₂ he => exact .raised hg h₁ h₂ he
  | ok hg h₁ h₂ hd =>
    cases hd with
    | assign hflow hbinding hv =>
      refine .ok hg h₁ h₂ ⟨?_, _, hbinding, hv⟩
      rcases hflow with rfl | rfl
      · rfl
      · simp [Flow.afterLabel]

/-! ## Values -/

namespace Machine

/-- The machine one call deeper. -/
def nested (m : Machine) : Machine := { m with depth := m.depth + 1 }

def unnested (m : Machine) : Machine := { m with depth := m.depth - 1 }

theorem leadsBack_unnested (m : Machine) : LeadsBack unnested m.nested m := fun _ hm =>
  ⟨⟨hm.env, hm.this, congrArg (· - 1) hm.depth, hm.callLimit⟩, rfl, rfl, rfl⟩

end Machine

namespace Eval

theorem ofRun?_deeper {α : Type} (f : Eval α) (m : Machine) :
    Outcome.ofRun? ((deeper f).run.run m) = leaving Machine.unnested (Outcome.ofRun? (f.run.run m.nested)) := by
  have hrun : (deeper f).run.run m = ((f.run.run m.nested).1, (f.run.run m.nested).2.unnested) := rfl
  rw [hrun]
  rcases f.run.run m.nested with ⟨(_ | _) | _, m'⟩ <;> rfl

/-- A step one call deeper, if there is room for a call. -/
theorem limit_nested {α : Type} {f : Nat → Eval α} (hf : Growing f) (span : Span) (m : Machine) :
    limit (fun n => nested span (f n)) m = if m.callLimit ≤ m.depth
      then some (.error (.callDepth span), m)
      else leaving Machine.unnested (limit f m.nested) := by
  unfold Eval.nested
  rw [limit_const_bind, run_get]
  show limit _ m = _
  split
  · exact limit_const _ m
  · exact hf.limit_map fun n => ofRun?_deeper (f n) m

theorem run_checkCall {c : Closure} (hc : (c.fn.isAsync || c.fn.isGenerator) = false) (span : Span)
    (m : Machine) : (checkCall c span).run.run m = if m.callLimit ≤ m.depth
      then (.error (.raised (.callDepth span)), m) else (.ok ⟨⟩, m) := by
  rw [checkCall, run_bind_ok (run_get m), hc]
  split <;> rfl

end Eval

/-- The function that is called at once. -/
def MatchExpr.wrapper (e : MatchExpr) (cache : String) (body : List Stmt) : Func :=
  { span := e.span, kind := .arrow, name := none,
    params := [{ span := e.span, target := .ident e.span cache, default := none, rest := false }],
    body := .block body, isAsync := false, isGenerator := false }

/-- A call of that function, by a machine that sees in its scope what the other sees. -/
theorem Aligned.callWrapper (h : Aligned names w m₁ m₂) {v₁ v₂ this : Value} (hv : w.Rel v₁ v₂)
    (hthis : w.Rel this m₂.this) {scope : Nat} (hscope : w.chains scope m₂.env.current)
    (hbody : e.Body (e.emission options .ret ordinal 0) ordinal 0 body)
    (he : e.CalledWithin names) (hapart : Apart names own ordinal) (hsafe : options.nullSafe = true)
    (hglobals : e.KeepsGlobals v₂ m₂.nested) :
    Related names own w (fun w _ _ => w.Rel) m₁ m₂
      (limit (callClosure · ⟨e.wrapper (FreshNames.name ordinal 0) body, scope, some this⟩ .undefined [v₁]
        e.span) m₁)
      (limit (fun n => nested e.span (e.select n v₂ e.branches)) m₂) := by
  have hroom : m₁.callLimit ≤ m₁.depth ↔ m₂.callLimit ≤ m₂.depth := by
    have := h.room
    omega
  rw [limit_callClosure rfl, run_checkCall rfl, limit_nested (e.growing_select v₂ e.branches)]
  by_cases hfull : m₂.callLimit ≤ m₂.depth
  · rw [if_pos hfull, if_pos (hroom.mpr hfull)]
    exact .raised (.refl h.agree) (.refl m₁) (.refl m₂) (.callDepth e.span)
  · rw [if_neg hfull, if_neg (hroom.not.mpr hfull)]
    have hgrown : Grown names own w m₁ m₂ (w.withChain m₁.scopes.count m₂.env.current)
        (m₁.called scope this) m₂.nested :=
      (h.agree.called_left hscope this).congr rfl rfl rfl rfl rfl rfl
    have hin : Aligned names (w.withChain m₁.scopes.count m₂.env.current) (m₁.called scope this)
        m₂.nested := by
      refine ⟨hgrown.agree, .inr ⟨rfl, rfl⟩, hthis.mono hgrown.le, ?_⟩
      have := h.room
      show m₁.callLimit + (m₂.depth + 1) = m₂.callLimit + (m₁.depth + 1)
      omega
    have hstage := hin.stage (hapart.fresh 0) (hv.mono hgrown.le) true
    have hgd := hin.agree.defined_own (hapart.fresh 0) (hapart.own 0) (m₁.called scope this).env.current
      ⟨v₁, true⟩
    have hrun := hstage.delivers (a := 0) .ret hbody he hapart hsafe hglobals
    have hresult : Related names own (w.withChain m₁.scopes.count m₂.env.current) (fun w _ _ => w.Rel)
        (m₁.called scope this) m₂.nested ((limit (params · (e.wrapper (FreshNames.name ordinal 0)
          body).params [v₁]) (m₁.called scope this)).bind (andThen fun _ m =>
            (limit (stmts · body) m).bind (andThen fun flow m' => some (.ok flow.result, m'))))
        (limit (e.select · v₂ e.branches) m₂.nested) := by
      rw [MatchExpr.wrapper, limit_params_single, limit_stmts hbody.ne_funcDecl]
      simp only [Option.bind_some, andThen_ok]
      refine .after hgd (Machine.samePlace_defined ..) (.refl _) ?_
      generalize limit (fun n => sequence (stmt n) body) _ = o₁ at hrun ⊢
      generalize limit (e.select · v₂ e.branches) m₂.nested = o₂ at hrun ⊢
      cases hrun with
      | never => exact .never
      | raised hg h₁ h₂ he => exact .raised hg h₁ h₂ he
      | ok hg h₁ h₂ hd =>
        cases hd with
        | ret hv => exact .ok hg h₁ h₂ hv
    exact hresult.leaving (m₁.leadsBack_returned scope this) m₂.leadsBack_unnested hgrown
      fun _ _ _ _ _ hab => hab

/-- A function that is called at once gives what dispatch selects, one call deeper. -/
theorem Aligned.callAtOnce (h : Aligned names w m₁ m₂)
    (hbody : e.Body (e.emission options .ret ordinal 0) ordinal 0 body)
    (he : e.CalledWithin names) (hapart : Apart names own ordinal) (hsafe : options.nullSafe = true)
    (hglobals : ∀ v m, limit (expr · e.subject) m₂ = some (.ok v, m) → e.KeepsGlobals v m.nested) :
    Related names own w (fun w _ _ => w.Rel) m₁ m₂
      (limit (expr · (Emission.callAtOnce e.span (some (FreshNames.name ordinal 0, e.subject)) body)) m₁)
      ((limit (expr · e.subject) m₂).bind (andThen fun v m =>
        limit (fun n => nested e.span (e.select n v e.branches)) m)) := by
  let fn := e.wrapper (FreshNames.name ordinal 0) body
  let c := m₁.closure fn
  have hga : Grown names noNames w m₁ m₂ w _ m₂ := h.agree.allocated_left (.closure c)
  have ha := h.moved hga (m₁.samePlace_allocated _) (.refl m₂)
  have hsubject := ha.run (growing_expr e.subject) (growing_expr e.subject) fun n =>
    (simulated names n).expr ha.chained he.subject
  show Related _ _ _ _ _ _ (limit (expr · (.call e.span (.func e.span fn) [e.subject] false)) m₁) _
  rw [limit_expr_call, limit_callee_func]
  simp only [Option.bind_some, andThen_ok]
  rw [limit_args_cons he.wellFormed.subject, bind_andThen_bind]
  refine .after (hga.mono fun _ hx => hx.elim) (m₁.samePlace_allocated _) (.refl m₂)
    (hsubject.withEnd.bind (fun _ hx => hx.elim) fun w' n₁ n₂ v₁ v₂ hg h₁ h₂ hv => ?_)
  rw [limit_args_nil]
  simp only [Option.bind_some, andThen_ok]
  have hn := ha.moved hg h₁ h₂
  -- nothing refers to the function's cell, so the subject's code cannot have changed it
  have hcell : n₁.heap.cells[m₁.heap.size]? = some (.closure c) := by
    have hnew : (m₁.allocated (.closure c)).heap.cells[m₁.heap.size]? = some (.closure c) := by
      show (m₁.heap.alloc (.closure c)).2.cells[m₁.heap.size]? = _
      rw [Heap.cells_alloc, if_pos rfl]
    rw [hg.kept₁.cell _ (Array.getElem?_eq_some_iff.mp hnew).1, hnew]
    rintro ⟨j, hc⟩
    exact Nat.lt_irrefl _ (h.agree.cell_lt hc).1
  rw [limit_call_closure hcell]
  have hthis : w'.Rel m₁.this n₂.this := by
    rw [h₂.this]
    exact h.this.mono hg.le
  have hscope : w'.chains m₁.env.current n₂.env.current := by
    rw [h₂.env]
    exact hg.le.2.2 _ _ h.chained
  exact hn.callWrapper hv.1 hthis hscope hbody he hapart hsafe (hglobals v₂ n₂ hv.2)

/-! ## Contexts -/

namespace Context

/-- The names that generated code binds in its context: those made for the expression, and the one that
    is declared. -/
def Owns (ordinal : Nat) : Context → String → Prop
  | value, x | destructuring .., x => FreshNames.Mints ordinal x
  | declaration _ name, x => FreshNames.Mints ordinal x ∨ x = name

/-- A pattern is within the names. A single name that is declared is none of them. -/
def Within (names : String → Prop) (ordinal : Nat) : Context → Prop
  | value => True
  | declaration _ name => ¬ names name ∧ ¬ FreshNames.Mints ordinal name
  | destructuring _ target => target.Within names

/-- The machine in which branches are tried after the subject was evaluated. -/
def inside (m : Machine) : Context → Machine
  | value => m.nested
  | declaration .. | destructuring .. => m

/-- Generated code, from the first machine, does what the second one's run did. A value is given, a
    declared name is bound, and what a pattern binds is among the names that the machines agree on. -/
def Refines (names : String → Prop) (ordinal : Nat) (w : World) (m₁ m₂ : Machine)
    (outcome : Option (Outcome Value)) : Context → Generated → Prop
  | context@value, .expr code =>
    Related names (context.Owns ordinal) w (fun w _ _ => w.Rel) m₁ m₂ (limit (expr · code) m₁) outcome
  | context@(declaration kind name), .stmts code =>
    Related names (context.Owns ordinal) w (fun w m₁ m₂ flow v => flow = .normal ∧
        ∃ u, m₁.scopes.binding m₁.env.current name = some ⟨u, kind != .constVar⟩ ∧
          m₂.scopes.binding m₂.env.current name = some ⟨v, kind != .constVar⟩ ∧ w.Rel u v)
      m₁ m₂ (limit (fun n => sequence (stmt n) code) m₁) outcome
  | context@(destructuring ..), .stmts code =>
    Related names (context.Owns ordinal) w (fun _ _ _ flow _ => flow = .normal) m₁ m₂
      (limit (fun n => sequence (stmt n) code) m₁) outcome
  | _, _ => False

theorem growing_deliver (context : Context) (v : Value) : Growing (context.deliver · v) := by
  cases context with
  | value | declaration => exact growing_const _
  | destructuring kind target => exact growing_bindPattern target v _

end Context

namespace MatchExpr

theorem limit_dispatch_value (e : MatchExpr) (m : Machine) :
    limit (e.dispatch .value ·) m = (limit (expr · e.subject) m).bind (andThen fun v m' =>
      limit (fun n => nested e.span (e.select n v e.branches)) m') := by
  have hstep : ∀ n, e.dispatch .value n
      = expr n e.subject >>= fun v => nested e.span (e.select n v e.branches) := by
    intro n
    simp [dispatch, Context.host, Context.deliver]
  simp only [hstep]
  rw [(growing_expr e.subject).limit_bind]

/-- Dispatch in the place of a statement. -/
theorem limit_dispatch_statement (e : MatchExpr) {context : Context}
    (hhost : ∀ act : Eval Value, context.host e.span act = act) (m : Machine) :
    limit (e.dispatch context ·) m = (e.selected m).bind (andThen fun v m' =>
      (limit (context.deliver · v) m').bind (andThen fun _ m'' => some (.ok v, m''))) := by
  unfold selected dispatch
  simp only [hhost]
  rw [(growing_expr e.subject).limit_bind, bind_andThen_bind]
  congr 2
  funext v m'
  rw [(e.growing_select v e.branches).limit_bind]
  congr 2
  funext result m''
  rw [(context.growing_deliver result).limit_bind]
  simp only [limit_pure]

end MatchExpr

/-! ## Declarations -/

/-- The result goes through a name, from which the target is bound. -/
theorem Aligned.rebind (h : Aligned names w m₁ m₂) {context : Context} {target : Binding} {kind : VarKind}
    {P : World → Machine → Machine → Value → Prop} (hhost : ∀ act : Eval Value, context.host e.span act = act)
    (hdeliver : ∀ {w' n₁ n₂ u v}, w ≤ w' → m₁.SamePlace n₁ → m₂.SamePlace n₂ → Aligned names w' n₁ n₂ →
      w'.Rel u v → Related names own w' (fun w m₁ m₂ _ _ => P w m₁ m₂ v) n₁ n₂
        (limit (bindPattern · target u (kind != .constVar)) n₁) (limit (context.deliver · v) n₂))
    (hbody : e.Body (e.emission options (.assign (.ident e.span (FreshNames.name ordinal 0))
      (FreshNames.name ordinal 1)) ordinal 2) ordinal 2 body)
    (he : e.CalledWithin names) (hapart : Apart names own ordinal) (hsafe : options.nullSafe = true)
    (hglobals : ∀ v m, limit (expr · e.subject) m₂ = some (.ok v, m) → e.KeepsGlobals v m) :
    Related names own w (fun w m₁ m₂ flow v => flow = .normal ∧ P w m₁ m₂ v) m₁ m₂
      (limit (fun n => sequence (stmt n) (Emission.place.rebind e.span
        (e.labeled (FreshNames.name ordinal 1) (FreshNames.name ordinal 2) body)
        (FreshNames.name ordinal 0) kind target)) m₁)
      (limit (e.dispatch context ·) m₂) := by
  let temp := FreshNames.name ordinal 0
  have htemp := hapart.fresh 0
  have hgd := h.agree.defined_own htemp (hapart.own 0) m₁.env.current ⟨.undefined, true⟩
  have hpd := m₁.samePlace_defined m₁.env.current temp ⟨.undefined, true⟩
  have hd := h.moved hgd hpd (.refl m₂)
  have howner : (m₁.defined m₁.env.current temp ⟨.undefined, true⟩).owner? temp
      = some (m₁.env.current, ⟨.undefined, true⟩) :=
    Scopes.owner?_define_self h.agree.ordered₁ h.current_lt temp _
  have hlabeled := hd.labeled htemp (hapart.own 0) howner
    (fun heq => absurd (FreshNames.name_inj heq).2 (by decide)) hbody he hapart hsafe hglobals
  unfold Emission.place.rebind
  rw [e.limit_dispatch_statement hhost, limit_sequence_cons]
  unfold Emission.declare
  rw [limit_stmt_declare_none]
  simp only [Option.bind_some, andThen_ok, following]
  rw [limit_sequence_cons]
  refine .after hgd hpd (.refl m₂) (hlabeled.bind (fun _ hx => hx) ?_)
  rintro w' n₁ n₂ flow v hg h₁ h₂ ⟨rfl, u, hbinding, hu⟩
  have hn := hd.moved hg h₁ h₂
  have hplace := hpd.trans h₁
  have hlookup : n₁.lookup? temp = some u := hn.lookup?_of_binding (hplace.env ▸ hbinding)
  simp only [following]
  rw [limit_sequence_cons, limit_stmt_declare, limit_expr_ident hlookup]
  simp only [Option.bind_some, andThen_ok]
  rw [bind_andThen_bind]
  refine (hdeliver (World.le_trans hgd.le hg.le) hplace h₂ hn hu).bind (fun _ hx => hx) ?_
  intro w'' k₁ k₂ _ _ hg' h₁' h₂' hP
  simp only [Option.bind_some, andThen_ok, following, limit_sequence_nil]
  exact .ok (.refl hg'.agree) (.refl k₁) (.refl k₂) ⟨rfl, hP⟩

/-- A declaration whose name the result is assigned to. -/
theorem Aligned.assigned (h : Aligned names w m₁ m₂) {kind : VarKind} (hkind : (kind != .constVar) = true)
    {name : String} (hname : ¬ names name) (hmint : ¬ FreshNames.Mints ordinal name) (hown : own name)
    (hbody : e.Body (e.emission options (.assign (.ident e.span name) (FreshNames.name ordinal 0))
      ordinal 1) ordinal 1 body)
    (he : e.CalledWithin names) (hapart : Apart names own ordinal) (hsafe : options.nullSafe = true)
    (hglobals : ∀ v m, limit (expr · e.subject) m₂ = some (.ok v, m) → e.KeepsGlobals v m) :
    Related names own w (fun w m₁ m₂ flow v => flow = .normal ∧
        ∃ u, m₁.scopes.binding m₁.env.current name = some ⟨u, kind != .constVar⟩ ∧
          m₂.scopes.binding m₂.env.current name = some ⟨v, kind != .constVar⟩ ∧ w.Rel u v) m₁ m₂
      (limit (fun n => sequence (stmt n) [Emission.declare e.span kind (.ident e.span name) none,
        e.labeled (FreshNames.name ordinal 0) (FreshNames.name ordinal 1) body]) m₁)
      (limit (e.dispatch (.declaration kind name) ·) m₂) := by
  have hgd := h.agree.defined_own hname hown m₁.env.current ⟨.undefined, true⟩
  have hpd := m₁.samePlace_defined m₁.env.current name ⟨.undefined, true⟩
  have hd := h.moved hgd hpd (.refl m₂)
  have howner : (m₁.defined m₁.env.current name ⟨.undefined, true⟩).owner? name
      = some (m₁.env.current, ⟨.undefined, true⟩) :=
    Scopes.owner?_define_self h.agree.ordered₁ h.current_lt name _
  have hlabeled := hd.labeled hname hown howner (fun heq => hmint ⟨1, heq⟩) hbody he hapart hsafe hglobals
  unfold Emission.declare
  rw [e.limit_dispatch_statement fun _ => rfl, limit_sequence_cons, limit_stmt_declare_none, hkind]
  simp only [Option.bind_some, andThen_ok, following]
  rw [limit_sequence_cons]
  refine .after hgd hpd (.refl m₂) (hlabeled.bind (fun _ hx => hx) ?_)
  rintro w' n₁ n₂ flow v hg h₁ h₂ ⟨rfl, u, hbinding, hu⟩
  have hn := hd.moved hg h₁ h₂
  have hdeliver : limit (Context.deliver · v (.declaration kind name)) n₂
      = some (.ok ⟨⟩, n₂.defined n₂.env.current name ⟨v, kind != .constVar⟩) := limit_const _ n₂
  rw [hdeliver]
  simp only [following, Option.bind_some, andThen_ok, limit_sequence_nil]
  refine .ok (hn.agree.defined_own_right hname hown _ _) (.refl n₁) (n₂.samePlace_defined ..)
    ⟨rfl, u, ?_, ?_, hu⟩
  · rw [h₁.env]
    exact hbinding
  · rw [← hkind]
    exact (Scopes.binding_define ..).trans (if_pos ⟨rfl, (hn.agree.inBounds _ _ hn.chained).2, rfl⟩)

/-- A name that both machines bind. -/
theorem Aligned.declared (h : Aligned names w m₁ m₂) {name : String} (hname : ¬ names name)
    (hown : own name) {u v : Value} (hu : w.Rel u v) (kind : VarKind) {span : Span} :
    Related names own w (fun w m₁ m₂ _ _ =>
        ∃ u, m₁.scopes.binding m₁.env.current name = some ⟨u, kind != .constVar⟩ ∧
          m₂.scopes.binding m₂.env.current name = some ⟨v, kind != .constVar⟩ ∧ w.Rel u v) m₁ m₂
      (limit (bindPattern · (.ident span name) u (kind != .constVar)) m₁)
      (limit (Context.deliver · v (.declaration kind name)) m₂) := by
  have hdeliver : limit (Context.deliver · v (.declaration kind name)) m₂
      = some (.ok ⟨⟩, m₂.defined m₂.env.current name ⟨v, kind != .constVar⟩) := limit_const _ m₂
  have hleft := h.agree.defined_own hname hown m₁.env.current ⟨u, kind != .constVar⟩
  rw [limit_bindPattern_ident, hdeliver]
  refine .ok (hleft.trans (hleft.agree.defined_own_right hname hown _ _)) (m₁.samePlace_defined ..)
    (m₂.samePlace_defined ..) ⟨u, ?_, ?_, hu⟩
  · exact (Scopes.binding_define ..).trans (if_pos ⟨rfl, h.current_lt, rfl⟩)
  · exact (Scopes.binding_define ..).trans (if_pos ⟨rfl, (h.agree.inBounds _ _ h.chained).2, rfl⟩)

/-! ## All contexts -/

namespace MatchExpr

/-- A text, to be labelled: neither a square nor a number, but a text that is selected. -/
def labelMatch : MatchExpr where
  subject := .str default "circle"
  branches := [
    { patterns := [.literal (.str "square"), .typeTag .number], guard := none,
      handler := .callable (.ident default "String"), span := default },
    { patterns := [.select ⟨default, none, some (.typeTag .string)⟩], guard := none,
      handler := .callable (.ident default "String"), span := default }]
  fallback := none
  exhaustive := false
  span := default

/-- The names that labelling uses. -/
def labelNames (x : String) : Prop := x ∈ "String" :: globalNames

end MatchExpr

end MatchChain
