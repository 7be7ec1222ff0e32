import MatchChain.Proofs.Code.Branches
import MatchChain.Proofs.Code.Testable

/-!
# Delivering results

Every branch delivers through the sink and leaves, so the statements of branches in order deliver what
first-match dispatch selects. What comes after them delivers what becomes of a value that no branch
takes.
-/

set_option autoImplicit false

namespace MatchChain

open Eval Outcome

variable {names own : String → Prop} {w : World} {m₁ m₂ : Machine}

/-! ## Runs that end alike -/

namespace Related

variable {α β : Type} {R : World → Machine → Machine → α → β → Prop} {o₁ : Option (Outcome α)}
  {o₂ : Option (Outcome β)}

/-- What the second run ended with may be used too. -/
theorem withEnd (h : Related names own w R m₁ m₂ o₁ o₂) :
    Related names own w (fun w m₁' m₂' a b => R w m₁' m₂' a b ∧ o₂ = some (.ok b, m₂')) m₁ m₂ o₁ o₂ := by
  cases h with
  | never => exact .never
  | ok hg h₁ h₂ hab => exact .ok hg h₁ h₂ ⟨hab, rfl⟩
  | raised hg h₁ h₂ he => exact .raised hg h₁ h₂ he

/-- Statements after one that did not end normally are skipped. -/
theorem followed {D : World → Machine → Machine → Flow → β → Prop} {o₁ : Option (Outcome Flow)}
    (h : Related names own w (fun w m₁ m₂ flow b => flow ≠ .normal ∧ D w m₁ m₂ flow b) m₁ m₂ o₁ o₂)
    (ss : List Stmt) : Related names own w D m₁ m₂ (o₁.bind (andThen (following ss))) o₂ := by
  cases h with
  | never => exact .never
  | @ok _ flow _ _ _ hg h₁ h₂ hab =>
    cases flow with
    | normal => exact absurd rfl hab.1
    | ret | breakTo | continueTo => exact .ok hg h₁ h₂ hab.2
  | raised hg h₁ h₂ he => exact .raised hg h₁ h₂ he

/-- A block that only the first machine enters. -/
theorem block {D : World → Machine → Machine → Flow → β → Prop} (ha : Aligned names w m₁ m₂)
    {body : List Stmt} (hbody : ∀ s ∈ body, ∀ span fn, s ≠ .funcDecl span fn)
    (hD : ∀ w m₁ m₂ flow b, D w m₁ m₂ flow b → D w m₁.left m₂ flow b)
    (h : Related names own (w.withChain m₁.scopes.count m₂.env.current) D m₁.entered m₂
      (limit (fun n => sequence (stmt n) body) m₁.entered) o₂) (span : Span) :
    Related names own w D m₁ m₂ (limit (stmt · (.block span body)) m₁) o₂ := by
  rw [limit_stmt_block, limit_stmts hbody, ← leaving_id o₂]
  exact h.leaving m₁.leadsBack_left m₂.leadsBack_id (ha.agree.entered_left ha.chained) hD

end Related

/-! ## Sinks -/

namespace Sink

/-- A result can be delivered: the name that it is assigned to is bound, in the scope `a`. -/
inductive Ready (names own : String → Prop) (a : Nat) (m : Machine) : Sink → Prop
  | ret : Ready names own a m .ret
  | assign {span : Span} {y label : String} : ¬ names y → own y →
      m.owner? y = some (a, ⟨.undefined, true⟩) → Ready names own a m (.assign (.ident span y) label)

/-- A value was delivered by statements that ended so. Nothing delivers undefined. -/
inductive Delivered (w : World) (a : Nat) (m : Machine) (v : Value) : Sink → Flow → Prop
  | ret {flow : Flow} : w.Rel flow.result v → Delivered w a m v .ret flow
  | assign {span : Span} {y label : String} {flow : Flow} {u : Value} :
      flow = .normal ∨ flow = .breakTo (some label) → m.scopes.binding a y = some ⟨u, true⟩ →
      w.Rel u v → Delivered w a m v (.assign (.ident span y) label) flow

variable {sink : Sink} {a : Nat}

theorem Delivered.left {m : Machine} {v : Value} {flow : Flow} (h : sink.Delivered w a m v flow) :
    sink.Delivered w a m.left v flow := by
  cases h with
  | ret hv => exact .ret hv
  | assign hflow hbinding hv => exact .assign hflow hbinding hv

theorem exit_ne_funcDecl (sink : Sink) (span : Span) (value : Option Expr) :
    ∀ s ∈ sink.exit span value, ∀ span fn, s ≠ .funcDecl span fn := by
  cases sink with
  | ret =>
    rintro s (_ | ⟨_, ⟨⟩⟩)
    exact nofun
  | assign =>
    rintro s (_ | ⟨_, _ | ⟨_, ⟨⟩⟩⟩) <;> exact nofun

namespace Ready

theorem moved {w' : World} {m₁' m₂' : Machine} (h : sink.Ready names own a m₁)
    (ha : Aligned names w m₁ m₂) (hg : Grown names noNames w m₁ m₂ w' m₁' m₂')
    (h₁ : m₁.SamePlace m₁') : sink.Ready names own a m₁' := by
  cases h with
  | ret => exact .ret
  | assign hy hown howner => exact .assign hy hown ((ha.owner? hg h₁ hy).trans howner)

theorem entered (h : sink.Ready names own a m₁) (ha : Aligned names w m₁ m₂) :
    sink.Ready names own a m₁.entered := by
  cases h with
  | ret => exact .ret
  | assign hy hown howner => exact .assign hy hown ((ha.owner?_entered _).trans howner)

/-- Statements that end normally without having delivered anything. -/
theorem delivered_undefined (h : sink.Ready names own a m₁) (ha : Aligned names w m₁ m₂) :
    sink.Delivered w a m₁ .undefined .normal := by
  cases h with
  | ret => exact .ret (.plain rfl)
  | assign _ _ howner =>
    exact .assign (.inl rfl) (Scopes.binding_of_owner? ha.agree.ordered₁ howner).1 (.plain rfl)

end Ready

end Sink

/-- An assignment to a name that is bound in the scope `a`. -/
theorem Eval.run_assign_owner {m : Machine} {u : Value} {y : String} {a : Nat}
    (howner : m.owner? y = some (a, ⟨u, true⟩)) (v : Value) (span : Span) :
    (assign y v span).run.run m = (.ok ⟨⟩, m.defined a y ⟨v, true⟩) := by
  rw [run_assign, show m.scopes.owner? m.env.current y = _ from howner]
  rfl

/-- An assignment and a jump. -/
theorem Eval.limit_sequence_deliver (span inner : Span) (x label : String) (e : Expr) (rest : List Stmt) (m : Machine) :
    limit (fun n => sequence (stmt n) (.expr span (.assign span .assign (.ident inner x) e)
        :: .breakTo span (some label) :: rest)) m
      = (limit (expr · e) m).bind (andThen fun v m' => (Outcome.ofRun? ((assign x v span).run.run m')).bind
          (andThen fun _ m'' => some (.ok (.breakTo (some label)), m''))) := by
  have hjump : ∀ m', following (.breakTo span (some label) :: rest) .normal m'
      = some (.ok (.breakTo (some label)), m') := by
    intro m'
    rw [following, limit_sequence_cons, limit_stmt_break]
    rfl
  rw [limit_sequence_cons, limit_stmt_expr, limit_expr_assign, bind_andThen_bind, bind_andThen_bind]
  congr 2
  funext v m'
  rw [bind_andThen_bind]
  simp only [Option.bind_some, andThen_ok, hjump]

/-- Nothing runs after a return. -/
theorem Eval.limit_sequence_ret (s : Span) (value : Option Expr) (rest : List Stmt) (m : Machine) :
    limit (fun n => sequence (stmt n) (.ret s value :: rest)) m = limit (stmt · (.ret s value)) m := by
  rw [limit_sequence_cons]
  cases value with
  | none =>
    rw [limit_stmt_ret_none]
    rfl
  | some e =>
    rw [limit_stmt_ret, bind_andThen_bind]
    rfl

namespace Sink.Ready

variable {sink : Sink} {a : Nat} {o₂ : Option (Outcome Value)} {e : Expr}

/-- The value of an expression is delivered, and what follows is left. -/
theorem exit (h : sink.Ready names own a m₁) (ha : Aligned names w m₁ m₂)
    (hrun : Related names noNames w (fun w _ _ => w.Rel) m₁ m₂ (limit (expr · e) m₁) o₂) (span : Span) :
    Related names own w (fun w m₁ _ flow v => flow ≠ .normal ∧ sink.Delivered w a m₁ v flow) m₁ m₂
      (limit (fun n => sequence (stmt n) (sink.exit span (some e))) m₁) o₂ := by
  have hright : o₂.bind (andThen fun v m => some (.ok v, m)) = o₂ := by
    rcases o₂ with _ | ⟨_ | _, _⟩ <;> rfl
  rw [← hright]
  cases h with
  | ret =>
    rw [Sink.exit, limit_sequence_ret, limit_stmt_ret]
    refine hrun.bind (fun _ hx => hx.elim) fun w' m₁' m₂' u v hg _ _ hv => ?_
    exact .ok (.refl hg.agree) (.refl m₁') (.refl m₂') ⟨by rintro ⟨⟩, .ret hv⟩
  | @assign inner y label hy hyown howner =>
    rw [Sink.exit, limit_sequence_deliver]
    refine hrun.bind (fun _ hx => hx.elim) fun w' m₁' m₂' u v hg h₁ h₂ hv => ?_
    have ha' := ha.moved hg h₁ h₂
    have howner' : m₁'.owner? y = some (a, ⟨.undefined, true⟩) := (ha.owner? hg h₁ hy).trans howner
    have hlt : a < m₁'.scopes.count :=
      Nat.lt_of_le_of_lt (Scopes.binding_of_owner? ha'.agree.ordered₁ howner').2 ha'.current_lt
    rw [run_assign_owner howner']
    refine .ok (ha'.agree.defined_own hy hyown a _) (m₁'.samePlace_defined ..) (.refl m₂')
      ⟨by rintro ⟨⟩, .assign (.inr rfl) ?_ hv⟩
    exact (Scopes.binding_define ..).trans (if_pos ⟨rfl, hlt, rfl⟩)

/-- The block of a branch. -/
theorem block (h : sink.Ready names own a m₁) (ha : Aligned names w m₁ m₂)
    (hrun : Related names noNames (w.withChain m₁.scopes.count m₂.env.current) (fun w _ _ => w.Rel)
      m₁.entered m₂ (limit (expr · e) m₁.entered) o₂) (span : Span) :
    Related names own w (fun w m₁ _ flow v => flow ≠ .normal ∧ sink.Delivered w a m₁ v flow) m₁ m₂
      (limit (stmt · (.block span (sink.exit span (some e)))) m₁) o₂ := by
  refine .block ha (sink.exit_ne_funcDecl span _) ?_ ((h.entered ha).exit ha.entered_left hrun span) span
  exact fun w' m₁' m₂' flow v hd => ⟨hd.1, hd.2.left⟩

end Sink.Ready

/-! ## Handlers and branches -/

/-- A handler that is an expression to be called. -/
def Handler.CalledWithin (names : String → Prop) : Handler → Prop
  | .callable callee => callee.Within names
  | .inline _ => False

/-- What is asked of a branch: its arrays are short, and its guard and its handler are expressions
    within the names. -/
structure Branch.CalledWithin (names : String → Prop) (b : Branch) : Prop where
  isShort : ∀ p ∈ b.patterns, p.isShort = true
  guard : ∀ g ∈ b.guard, g.Within names
  handler : b.handler.CalledWithin names

/-- What generated code is for: it tests the name `x` and is safe on null and undefined. -/
structure Emission.Reading (em : Emission) (x : String) : Prop where
  nullSafe : em.nullSafe = true
  subject : em.subject = .ident em.span x

namespace Stage

variable {x : String} {v₁ v₂ : Value} {em : Emission} {a : Nat}

/-- The block of a handler delivers what the handler gives. -/
theorem invoke (h : Stage names w x v₁ v₂ m₁ m₂) (hem : em.Reading x)
    (hready : em.sink.Ready names own a m₁) {handler : Handler} (hhandler : handler.CalledWithin names)
    {cs : List Capture} {ps : List SelectedPath}
    (hcs : List.Forall₂ (Capture.Follows em.span x v₁) cs ps) :
    Related names own w (fun w m₁ _ flow v => flow ≠ .normal ∧ em.sink.Delivered w a m₁ v flow) m₁ m₂
      (limit (stmt · (em.invoke (Capture.value? em.span cs)
        (handler.plan em.span em.sink.targetNames))) m₁)
      (limit (handler.handle · em.span v₂ ps) m₂) := by
  cases handler with
  | inline fn => exact hhandler.elim
  | callable callee =>
    rw [Handler.plan, Emission.invoke, hem.subject]
    exact hready.block h.aligned (h.entered.handle hhandler hcs) em.span

/-- The captures of a branch follow what it selects. -/
theorem captures_follow (hem : em.Reading x) {b : Branch} (hb : b.CalledWithin names) :
    List.Forall₂ (Capture.Follows em.span x v₁)
      (b.patterns.flatMap (Pattern.captures em.style em.subject)) b.paths := by
  have hshort := hb.isShort
  unfold Branch.paths
  rw [hem.subject]
  generalize b.patterns = ps at hshort ⊢
  induction ps with
  | nil => exact .nil
  | cons p ps ih =>
    rw [List.flatMap_cons, List.flatMap_cons]
    have hp : List.Forall₂ (Capture.Follows em.style.span x v₁)
        (p.captures em.style (.ident em.span x)) (p.paths []) :=
      Pattern.captures_follow hem.nullSafe p (hshort p List.mem_cons_self) (.ident em.span em.span x v₁)
    exact List.rel_append hp (ih fun q hq => hshort q (List.mem_cons_of_mem p hq))

end Stage

/-- The machines in which dispatch tries one of the branches, or what follows them, from a machine. -/
inductive Tries (span : Span) (v : Value) : List Branch → Machine → Machine → Prop
  | now (bs : List Branch) (m : Machine) : Tries span v bs m m
  | later {b : Branch} {bs : List Branch} {m m' m'' : Machine} :
      limit (b.takes · span v) m = some (.ok false, m') → Tries span v bs m' m'' →
      Tries span v (b :: bs) m m''

/-- Trying a branch without a guard changes nothing. -/
theorem Tries.eq_of_no_guard {span : Span} {v : Value} {bs : List Branch} {m m' : Machine}
    (h : Tries span v bs m m') (hbs : ∀ b ∈ bs, b.guard = none) : m' = m := by
  induction h with
  | now => rfl
  | @later b bs m m' m'' hrun _ ih =>
    rw [b.limit_takes, hbs b List.mem_cons_self] at hrun
    have hsame : m' = m := by
      split at hrun <;> cases hrun
      rfl
    rw [ih fun c hc => hbs c (List.mem_cons_of_mem b hc), hsame]

/-- Code is generated for a branch with patterns that can be tested. -/
theorem Emission.branches_of_testable {em : Emission} {b : Branch}
    (h : b.patterns.forM (Pattern.checkTestable em.span) = .ok ()) (plan : Invocation)
    (rest : List (Branch × Invocation)) :
    em.branches ((b, plan) :: rest)
      = (match em.condition? b with
        | none => .ok ([em.invoke (em.selection? b) plan], true)
        | some test => do
          let (stmts, always) ← em.branches rest
          return (.ifElse em.span test (em.invoke (em.selection? b) plan) none :: stmts, always)) := by
  rw [Emission.branches, h]
  rfl

/-- What generating a branch asked and made. -/
theorem Emission.branches_cons {em : Emission} {b : Branch} {plan : Invocation}
    {rest : List (Branch × Invocation)} {stmts : List Stmt} {always : Bool}
    (h : em.branches ((b, plan) :: rest) = .ok (stmts, always)) :
    (∀ p ∈ b.patterns, p.unsupported? = none) ∧
      (em.condition? b = none ∧ stmts = [em.invoke (em.selection? b) plan] ∧ always = true ∨
        ∃ test others, em.condition? b = some test ∧ em.branches rest = .ok (others, always) ∧
          stmts = .ifElse em.span test (em.invoke (em.selection? b) plan) none :: others) := by
  cases hcheck : b.patterns.forM (Pattern.checkTestable em.span) with
  | error fault =>
    rw [Emission.branches, hcheck] at h
    cases h
  | ok =>
    rw [Emission.branches_of_testable hcheck] at h
    refine ⟨(Pattern.forM_checkTestable_eq_ok_iff em.span b.patterns).mp hcheck, ?_⟩
    cases hcond : em.condition? b with
    | none =>
      simp only [hcond] at h
      cases h
      exact .inl ⟨rfl, rfl, rfl⟩
    | some test =>
      simp only [hcond] at h
      cases hrest : em.branches rest with
      | error e =>
        rw [hrest] at h
        cases h
      | ok r =>
        rw [hrest] at h
        cases h
        exact .inr ⟨test, r.1, rfl, rfl, rfl⟩

namespace Stage

variable {x : String} {v₁ v₂ : Value} {em : Emission} {a : Nat} {e : MatchExpr}

/-- The statements of branches in order, with what comes after them, deliver what dispatch selects. -/
theorem branches (hspan : em.span = e.span) (hem : em.Reading x) (hnames : ∀ x ∈ globalNames, names x)
    {rest : List Stmt}
    (hrest : ∀ {w m₁ m₂}, Stage names w x v₁ v₂ m₁ m₂ → em.sink.Ready names own a m₁ →
      m₂.HasGlobals → Related names own w (fun w m₁ _ flow v => em.sink.Delivered w a m₁ v flow) m₁ m₂
        (limit (fun n => sequence (stmt n) rest) m₁) (limit (e.otherwise · v₂) m₂)) :
    ∀ {bs : List Branch} {stmts : List Stmt} {always : Bool},
      em.branches (bs.zip (bs.map (·.handler.plan em.span em.sink.targetNames))) = .ok (stmts, always) →
      (∀ b ∈ bs, b.patterns ≠ []) → (∀ b ∈ bs, b.CalledWithin names) → ∀ {w m₁ m₂}, Stage names w x v₁ v₂ m₁ m₂ →
      em.sink.Ready names own a m₁ → (∀ m, Tries e.span v₂ bs m₂ m → m.HasGlobals) →
      Related names own w (fun w m₁ _ flow v => em.sink.Delivered w a m₁ v flow) m₁ m₂
        (limit (fun n => sequence (stmt n) (stmts ++ if always then [] else rest)) m₁)
        (limit (e.select · v₂ bs) m₂) := by
  intro bs
  induction bs with
  | nil =>
    intro stmts always hstmts _ _ w m₁ m₂ h hready hglobals
    cases hstmts
    exact hrest h hready (hglobals m₂ (.now [] m₂))
  | cons b bs ih =>
    intro stmts always hstmts hne hbs w m₁ m₂ h hready hglobals
    have hb := hbs b List.mem_cons_self
    have hneb := hne b List.mem_cons_self
    have hm₁ := h.aligned.hasGlobals hnames (hglobals m₂ (.now _ m₂))
    obtain ⟨hsupported, hcases⟩ := Emission.branches_cons hstmts
    -- a branch that is taken leaves, whatever statements follow
    have htaken : ∀ {w' m₁' m₂'} (ss : List Stmt), Stage names w' x v₁ v₂ m₁' m₂' →
        em.sink.Ready names own a m₁' →
        Related names own w' (fun w m₁ _ flow v => em.sink.Delivered w a m₁ v flow) m₁' m₂'
          ((limit (stmt · (em.invoke (em.selection? b)
            (b.handler.plan em.span em.sink.targetNames))) m₁').bind (andThen (following ss)))
          (limit (b.handler.handle · em.span v₂ b.paths) m₂') := by
      intro w' m₁' m₂' ss h' hready'
      exact (h'.invoke hem hready' hb.handler (captures_follow hem hb)).followed ss
    rw [e.limit_select, ← hspan]
    rcases hcases with ⟨hcond, rfl, rfl⟩ | ⟨test, others, hcond, hothers, rfl⟩
    · rw [em.limit_takes_of_condition? hsupported hneb hcond]
      simp only [if_true, List.append_nil, Option.bind_some, andThen_ok]
      rw [limit_sequence_cons]
      exact htaken [] h hready
    · rw [List.cons_append, limit_sequence_cons, limit_stmt_if, bind_andThen_bind]
      have hps : ∀ p ∈ b.patterns, p.unsupported? = none ∧ p.isShort = true := fun p hp =>
        ⟨hsupported p hp, hb.isShort p hp⟩
      have hrun := h.condition hm₁.toHasTestGlobals hem.nullSafe hem.subject hps hneb
        hb.guard hcond
      refine hrun.withEnd.bind (fun _ hx => hx.elim) fun w' m₁' m₂' u taken hg h₁ h₂ hu => ?_
      have h' := h.moved hg h₁ h₂
      have hready' := hready.moved h.aligned hg h₁
      rw [hu.1]
      cases taken with
      | true =>
        simp only [if_true]
        exact htaken _ h' hready'
      | false =>
        have htries : ∀ m, Tries e.span v₂ bs m₂' m → m.HasGlobals := fun m hm =>
          hglobals m (.later (hspan ▸ hu.2) hm)
        exact ih hothers (fun c hc => hne c (List.mem_cons_of_mem b hc))
          (fun c hc => hbs c (List.mem_cons_of_mem b hc)) h' hready' htries

end Stage

end MatchChain
