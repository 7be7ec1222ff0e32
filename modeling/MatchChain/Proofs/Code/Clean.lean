import MatchChain.Proofs.Code.Accesses
import MatchChain.Proofs.Code.Delivery
import MatchChain.Proofs.Code.Naming
import MatchChain.Proofs.Code.Redirect
import MatchChain.Proofs.Match.Clauses
import MatchChain.Proofs.Syntax.Parts

/-!
# Names and branches of generated code

Code is made of the parts of the chain that it replaces and of nodes of its own. Its own nodes mention
fresh names and a few global objects, and none of them is an `if` with an `else`. So whatever holds of
the names of a chain, of its fresh names and of these globals holds of the names of its code, and no
branch dangles in the code unless one did in the chain.
-/

set_option autoImplicit false

namespace MatchChain

variable {e : Expr} {body : List Stmt} {name : String}

/-! ## Clean trees -/

/-- The global objects and values that generated code reads. -/
def Emission.globals : List String := ["undefined", "Number", "Array", "JSON", "Error"]

/-- A part whose names satisfy `A`, these globals apart, and that is not dangling if `D` asks for it. -/
structure Part.Clean (D : Prop) (A : String → Prop) (n : Part) : Prop where
  attached : D → n.isDangling = false
  named : ∀ x ∈ n.names, x ∈ Emission.globals ∨ A x

variable {D : Prop} {A : String → Prop}

abbrev Expr.Clean (D : Prop) (A : String → Prop) (e : Expr) : Prop := (Part.expr e).All (Part.Clean D A)

abbrev Stmt.Clean (D : Prop) (A : String → Prop) (s : Stmt) : Prop := (Part.stmt s).All (Part.Clean D A)

abbrev Binding.Clean (D : Prop) (A : String → Prop) (b : Binding) : Prop := (Part.binding b).All (Part.Clean D A)

abbrev Func.Clean (D : Prop) (A : String → Prop) (fn : Func) : Prop := (Part.func fn).All (Part.Clean D A)

/-- A part without a name of its own that cannot dangle. -/
theorem Part.All.plain {n : Part} (hdangling : n.isDangling = false) (hnames : n.names = [])
    (h : ∀ m ∈ n.children, m.All (Part.Clean D A)) : n.All (Part.Clean D A) := by
  refine .intro ⟨fun _ => hdangling, fun x hx => ?_⟩ h
  rw [hnames] at hx
  cases hx

namespace Part

variable {P : Part → Prop}

theorem forall_exprs {es : List Expr} : (∀ m ∈ es.map expr, m.All P) ↔ ∀ e ∈ es, (expr e).All P := List.forall_mem_map

theorem forall_stmts {ss : List Stmt} : (∀ m ∈ ss.map stmt, m.All P) ↔ ∀ s ∈ ss, (stmt s).All P := List.forall_mem_map

end Part

theorem Expr.Clean.leaf (hnames : (Part.expr e).names = []) (h : Part.ofExpr e = []) : e.Clean D A := by
  refine .plain rfl hnames fun m hm => ?_
  change m ∈ Part.ofExpr e at hm
  rw [h] at hm
  cases hm

/-! ## Nodes of generated code -/

namespace Part

theorem clean_iff {n : Part} (hdangling : n.isDangling = false) :
    n.All (Clean D A) ↔ (∀ x ∈ n.names, x ∈ Emission.globals ∨ A x) ∧ ∀ m ∈ n.children, m.All (Clean D A) :=
  ⟨fun h => ⟨h.here.named, h.children⟩, fun h => .intro ⟨fun _ => hdangling, h.1⟩ h.2⟩

section Nodes

attribute [local simp] names children ofExpr ofStmt ofValue

variable (span : Span) (e₁ e₂ : Expr) (es : List Expr) (b : Bool)

@[simp] theorem clean_str (text : String) : (Expr.str span text).Clean D A := .leaf rfl rfl

@[simp] theorem clean_num (value : Double) : (Expr.num span value).Clean D A := .leaf rfl rfl

@[simp] theorem clean_bigint (digits : String) : (Expr.bigint span digits).Clean D A := .leaf rfl rfl

@[simp] theorem clean_bool : (Expr.bool span b).Clean D A := .leaf rfl rfl

@[simp] theorem clean_null : (Expr.null span).Clean D A := .leaf rfl rfl

@[simp] theorem clean_ident : (Expr.ident span name).Clean D A ↔ name ∈ Emission.globals ∨ A name :=
  (clean_iff rfl).trans (by simp)

@[simp] theorem clean_template (texts : List TemplateText) :
    (Expr.template span texts es).Clean D A ↔ ∀ e ∈ es, e.Clean D A := by
  have htext : ∀ t, (text t).All (Clean D A) := fun t => .plain rfl rfl nofun
  exact (clean_iff rfl).trans (by simp [htext, or_imp, forall_and])

@[simp] theorem clean_unary (op : UnaryOp) : (Expr.unary span op e₁).Clean D A ↔ e₁.Clean D A :=
  (clean_iff rfl).trans (by simp)

@[simp] theorem clean_binary (op : BinaryOp) :
    (Expr.binary span op e₁ e₂).Clean D A ↔ e₁.Clean D A ∧ e₂.Clean D A :=
  (clean_iff rfl).trans (by simp)

@[simp] theorem clean_assign (op : AssignOp) :
    (Expr.assign span op e₁ e₂).Clean D A ↔ e₁.Clean D A ∧ e₂.Clean D A :=
  (clean_iff rfl).trans (by simp)

@[simp] theorem clean_member : (Expr.member span e₁ name b).Clean D A ↔ e₁.Clean D A :=
  (clean_iff rfl).trans (by simp)

@[simp] theorem clean_index : (Expr.index span e₁ e₂ b).Clean D A ↔ e₁.Clean D A ∧ e₂.Clean D A :=
  (clean_iff rfl).trans (by simp)

@[simp] theorem clean_call : (Expr.call span e₁ es b).Clean D A ↔ e₁.Clean D A ∧ ∀ e ∈ es, e.Clean D A :=
  (clean_iff rfl).trans (by simp)

@[simp] theorem clean_construct : (Expr.construct span e₁ es).Clean D A ↔ e₁.Clean D A ∧ ∀ e ∈ es, e.Clean D A :=
  (clean_iff rfl).trans (by simp)

@[simp] theorem clean_func (fn : Func) : (Expr.func span fn).Clean D A ↔ fn.Clean D A :=
  (clean_iff rfl).trans (by simp)

@[simp] theorem clean_name : (Binding.ident span name).Clean D A ↔ name ∈ Emission.globals ∨ A name :=
  (clean_iff rfl).trans (by simp)

@[simp] theorem clean_stmtExpr : (Stmt.expr span e₁).Clean D A ↔ e₁.Clean D A :=
  (clean_iff rfl).trans (by simp)

@[simp] theorem clean_ret (value : Option Expr) : (Stmt.ret span value).Clean D A ↔ ∀ e ∈ value, e.Clean D A :=
  (clean_iff rfl).trans (by simp)

@[simp] theorem clean_declare (kind : VarKind) (target : Binding) (init : Option Expr) :
    (Emission.declare span kind target init).Clean D A ↔ target.Clean D A ∧ ∀ e ∈ init, e.Clean D A := by
  have hdeclarator : (declarator ⟨span, target, init⟩).All (Clean D A) ↔ _ := clean_iff rfl
  rw [Emission.declare]
  exact (clean_iff rfl).trans (by simp [hdeclarator])

@[simp] theorem clean_block : (Stmt.block span body).Clean D A ↔ ∀ s ∈ body, s.Clean D A :=
  (clean_iff rfl).trans (by simp)

@[simp] theorem clean_labeled (s : Stmt) :
    (Stmt.labeled span name s).Clean D A ↔ (name ∈ Emission.globals ∨ A name) ∧ s.Clean D A :=
  (clean_iff rfl).trans (by simp)

@[simp] theorem clean_breakTo : (Stmt.breakTo span (some name)).Clean D A ↔ name ∈ Emission.globals ∨ A name :=
  (clean_iff rfl).trans (by simp)

@[simp] theorem clean_throwing : (Stmt.throwing span e₁).Clean D A ↔ e₁.Clean D A :=
  (clean_iff rfl).trans (by simp)

theorem clean_ifElse (s : Stmt) (s' : Option Stmt) : (Stmt.ifElse span e₁ s s').Clean D A
    ↔ (D → (Stmt.ifElse span e₁ s s').isDangling = false) ∧ e₁.Clean D A ∧ s.Clean D A ∧ ∀ s ∈ s', s.Clean D A := by
  refine ⟨fun h => ⟨h.here.attached, ?_⟩, fun h => .intro ⟨h.1, nofun⟩ ?_⟩
  · simpa using h.children
  · simpa using h.2

@[simp] theorem clean_ifThen (s : Stmt) : (Stmt.ifElse span e₁ s none).Clean D A ↔ e₁.Clean D A ∧ s.Clean D A :=
  (clean_iff rfl).trans (by simp)

@[simp] theorem clean_tryCatch (handler : Option CatchClause) (finalizer : Option (List Stmt)) :
    (Stmt.tryCatch span body handler finalizer).Clean D A ↔ (∀ s ∈ body, s.Clean D A) ∧
      (∀ c ∈ handler, (∀ b ∈ c.param, b.Clean D A) ∧ ∀ s ∈ c.body, s.Clean D A) ∧
      ∀ ss ∈ finalizer, ∀ s ∈ ss, s.Clean D A :=
  (clean_iff rfl).trans (by cases handler <;> cases finalizer <;> simp [ofCatch, or_imp, forall_and, and_assoc])

@[simp] theorem clean_whileLoop (s : Stmt) : (Stmt.whileLoop span e₁ s).Clean D A ↔ e₁.Clean D A ∧ s.Clean D A :=
  (clean_iff rfl).trans (by simp)

@[simp] theorem clean_single : (Stmt.single span body).Clean D A ↔ ∀ s ∈ body, s.Clean D A := by
  rcases body with _ | ⟨s, _ | ⟨s', ss⟩⟩ <;> simp [Stmt.single]

end Nodes

end Part

/-! ## Tests and captures -/

@[simp] theorem AccessStyle.clean_globalCall (style : AccessStyle) (object function : String) :
    (style.globalCall object function e).Clean D A ↔ (object ∈ Emission.globals ∨ A object) ∧ e.Clean D A := by
  simp [globalCall]

theorem AccessStyle.clean (style : AccessStyle) : style.Tested (Expr.Clean D A) (Expr.Clean D A) where
  element position h := by simpa [element] using h
  field name h := by
    unfold field
    split <;> simpa using h
  literal value h := by
    cases value <;> simpa [LiteralPattern.test, LiteralPattern.test.equals, Emission.globals] using h
  typeTag tag h := by
    unfold TypeTag.test
    split <;> simpa using h
  isArray h := by simpa [Emission.globals] using h
  length least h := by simpa [length] using h

theorem Capture.clean_value? {span : Span} {captures : List Capture}
    (h : Capture.value? span captures = some e) (hcaptures : ∀ c ∈ captures, c.value.Clean D A) : e.Clean D A := by
  unfold Capture.value? at h
  split at h
  · cases h
  · cases h
    exact hcaptures _ List.mem_cons_self
  · cases h
    refine .plain rfl rfl (List.forall_mem_map.mpr fun p hp => ?_)
    obtain ⟨c, hc, hp⟩ := List.mem_filterMap.mp hp
    obtain ⟨name, _, rfl⟩ := Option.map_eq_some_iff.mp hp
    have hkey : Part.ofKey (.named name) = [] := by
      unfold PropKey.named
      split <;> rfl
    refine .plain rfl rfl ?_
    rw [Part.children, hkey]
    exact List.forall_mem_singleton.mpr (hcaptures c hc)

namespace Emission

variable {em : Emission}

theorem clean_alternatives? (hem : em.subject.Clean D A) {patterns : List Pattern}
    (h : em.alternatives? patterns = some e) : e.Clean D A :=
  forall_alternatives? em.style.clean (fun op _ _ hleft hright => by simp [hleft, hright]) hem h

theorem clean_condition? (hem : em.subject.Clean D A) {b : Branch} (hguard : ∀ guard ∈ b.guard, guard.Clean D A)
    (h : em.condition? b = some e) : e.Clean D A := by
  rcases condition?_cases h with ⟨_, htest⟩ | ⟨guard, hsome, rfl | ⟨test, htest, rfl⟩⟩
  · exact clean_alternatives? hem htest
  · simp [hguard guard hsome, hem]
  · simp [clean_alternatives? hem htest, hguard guard hsome, hem]

theorem clean_selection? (hem : em.subject.Clean D A) (b : Branch) : ∀ e ∈ em.selection? b, e.Clean D A := by
  intro e he
  refine Capture.clean_value? he fun c hc => ?_
  obtain ⟨p, _, hc⟩ := List.mem_flatMap.mp hc
  exact p.forall_captures em.style.clean.toInherited hem c hc

end Emission

/-! ## Handlers -/

namespace Sink

/-- A sink whose exits are clean. -/
def Clean (D : Prop) (A : String → Prop) : Sink → Prop
  | ret => True
  | assign target label => target.Clean D A ∧ A label

variable {sink : Sink}

theorem Clean.exit (h : sink.Clean D A) (span : Span) {value : Option Expr} (hvalue : ∀ e ∈ value, e.Clean D A) :
    ∀ s ∈ sink.exit span value, s.Clean D A := by
  cases sink with
  | ret => simpa [Sink.exit] using hvalue
  | assign target label =>
    obtain ⟨htarget, hlabel⟩ := h
    cases value <;> simp_all [Sink.exit, Emission.globals]

/-- Redirected returns leave a statement as open as it was. -/
theorem endsOpen_redirect (sink : Sink) (span : Span) (s : Stmt) :
    (Stmt.single span (sink.redirect span s)).endsOpen = s.endsOpen := by
  apply redirect.induct (fun s => (Stmt.single span (sink.redirect span s)).endsOpen = s.endsOpen) (fun _ => True)
    (fun _ => True) (fun _ => True) (fun s => endsOpenElse (sink.redirectElse span s) = endsOpenElse s)
  case case1 => cases sink <;> exact fun _ _ => rfl
  all_goals
    intros
    simp_all [redirect, redirectElse, Stmt.single, Stmt.endsOpen, endsOpenElse]

theorem isDangling_redirect (sink : Sink) (span s : Span) (cond : Expr) (thenBranch : Stmt)
    (elseBranch : Option Stmt) :
    (Stmt.ifElse s cond (.single span (sink.redirect span thenBranch)) (sink.redirectElse span elseBranch)).isDangling
      = (Stmt.ifElse s cond thenBranch elseBranch).isDangling := by
  cases elseBranch with
  | none => rfl
  | some _ => exact endsOpen_redirect sink span thenBranch

theorem Clean.redirectAll (h : sink.Clean D A) (span : Span) (ss : List Stmt) :
    (∀ s ∈ ss, s.Clean D A) → ∀ s ∈ sink.redirectAll span ss, s.Clean D A := by
  apply Sink.redirectAll.induct (fun s => s.Clean D A → ∀ s' ∈ sink.redirect span s, s'.Clean D A)
    (fun f => (∀ ss ∈ f, ∀ s ∈ ss, s.Clean D A) → ∀ ss ∈ sink.redirectFinally span f, ∀ s ∈ ss, s.Clean D A)
    (fun ss => (∀ s ∈ ss, s.Clean D A) → ∀ s ∈ sink.redirectAll span ss, s.Clean D A)
    (fun o => (∀ c ∈ o, (∀ b ∈ c.param, b.Clean D A) ∧ ∀ s ∈ c.body, s.Clean D A) →
      ∀ c ∈ sink.redirectCatch span o, (∀ b ∈ c.param, b.Clean D A) ∧ ∀ s ∈ c.body, s.Clean D A)
    (fun o => (∀ s ∈ o, s.Clean D A) → ∀ s ∈ sink.redirectElse span o, s.Clean D A)
  case case1 => exact fun _ value hvalue => h.exit span (by simpa using hvalue)
  case case3 =>
    intro s cond thenBranch elseBranch hthen helse hs
    simp only [Sink.redirect, List.mem_singleton, forall_eq, Part.clean_ifElse, isDangling_redirect] at hs ⊢
    simp_all
  all_goals
    intros
    simp_all [Sink.redirect, Sink.redirectAll, Sink.redirectElse, Sink.redirectCatch, Sink.redirectFinally]
    try grind [Part.clean_single]

end Sink

def Handler.Clean (D : Prop) (A : String → Prop) : Handler → Prop
  | .inline fn => fn.Clean D A
  | .callable callee => callee.Clean D A

theorem Handler.clean_ofExpr (h : e.Clean D A) : (Handler.ofExpr e).Clean D A := by
  cases e with
  | func span fn => exact h.children _ List.mem_cons_self
  | _ => exact h

/-- What generated code takes from a match expression. -/
structure MatchExpr.Clean (D : Prop) (A : String → Prop) (m : MatchExpr) : Prop where
  subject : m.subject.Clean D A
  guards : ∀ b ∈ m.branches, ∀ guard ∈ b.guard, guard.Clean D A
  handlers : ∀ b ∈ m.branches, b.handler.Clean D A
  fallback : ∀ handler ∈ m.fallback, handler.Clean D A

namespace Emission

variable {em : Emission} {selection : Option Expr}

section Sending

variable (hsubject : em.subject.Clean D A) (hsink : em.sink.Clean D A) (hselection : ∀ e ∈ selection, e.Clean D A)

include hsubject hselection in
theorem clean_argument? (position : Nat) (target : Binding) :
    ∀ e ∈ em.argument? selection position target, e.Clean D A := by
  unfold argument?
  split <;> simp_all [globals]

include hsubject hselection in
theorem clean_parameters : ∀ (position : Nat) (ps : List Param),
    (∀ p ∈ ps, (Part.param p).All (Part.Clean D A)) → ∀ s ∈ em.parameters selection position ps, s.Clean D A
  | _, [], _ => nofun
  | position, p :: ps, hps => by
    obtain ⟨hp, hps⟩ := List.forall_mem_cons.mp hps
    have htarget : p.target.Clean D A := hp.children _ List.mem_cons_self
    have hargument := clean_argument? hsubject hselection position p.target
    exact List.forall_mem_cons.mpr
      ⟨(Part.clean_declare ..).mpr ⟨htarget, hargument⟩, clean_parameters (position + 1) ps hps⟩

include hsink in
theorem clean_body {body : FuncBody} (h : ∀ m ∈ Part.ofBody body, m.All (Part.Clean D A)) :
    ∀ s ∈ em.body body, s.Clean D A := by
  cases body with
  | expr value =>
    refine hsink.exit em.span ?_
    rintro _ ⟨⟩
    exact h _ List.mem_cons_self
  | block ss =>
    have hss := Part.forall_stmts.mp h
    refine List.forall_mem_append.mpr ⟨?_, ?_⟩
    · split
      · exact hss
      · rw [Sink.getD_redirectAll?]
        exact hsink.redirectAll em.span ss hss
    · split
      · exact hsink.exit em.span (by rintro _ ⟨⟩)
      · rintro _ ⟨⟩

include hsubject hsink hselection in
theorem clean_invoke {handler : Handler} (h : handler.Clean D A) (span : Span) (targetNames : List String) :
    (em.invoke selection (handler.plan span targetNames)).Clean D A := by
  have hcalled : ∀ callee : Expr, callee.Clean D A → (em.invoke selection (.called callee)).Clean D A := by
    intro callee hcallee
    rw [invoke, Part.clean_block]
    refine hsink.exit em.span ?_
    simp_all [or_imp]
  cases handler with
  | callable callee => exact hcalled callee h
  | inline fn =>
    rw [Handler.plan]
    split
    · exact hcalled _ ((Part.clean_func span fn).mpr h)
    · obtain ⟨hparams, hbody⟩ := List.forall_mem_append.mp h.children
      have hparams := clean_parameters hsubject hselection 0 fn.params (List.forall_mem_map.mp hparams)
      exact (Part.clean_block _).mpr (List.forall_mem_append.mpr ⟨hparams, clean_body hsink hbody⟩)

include hsubject hsink in
theorem clean_branches {span : Span} {targetNames : List String} : ∀ {bs : List Branch} {stmts : List Stmt}
    {always : Bool}, (∀ b ∈ bs, ∀ guard ∈ b.guard, guard.Clean D A) → (∀ b ∈ bs, b.handler.Clean D A) →
      em.branches (bs.zip (bs.map (·.handler.plan span targetNames))) = .ok (stmts, always) →
      ∀ s ∈ stmts, s.Clean D A
  | [], _, _, _, _, h => by
    cases h
    exact nofun
  | b :: bs, stmts, always, hguards, hhandlers, h => by
    obtain ⟨hguard, hguards⟩ := List.forall_mem_cons.mp hguards
    obtain ⟨hhandler, hhandlers⟩ := List.forall_mem_cons.mp hhandlers
    have hblock := clean_invoke hsubject hsink (clean_selection? hsubject b) hhandler span targetNames
    rcases (branches_cons h).2 with ⟨_, rfl, _⟩ | ⟨test, others, htest, hothers, rfl⟩
    · exact List.forall_mem_singleton.mpr hblock
    · have htest := clean_condition? hsubject hguard htest
      exact List.forall_mem_cons.mpr
        ⟨(Part.clean_ifThen ..).mpr ⟨htest, hblock⟩, clean_branches hguards hhandlers hothers⟩

include hsubject in
theorem clean_noMatch {shown error : String} (hshown : A shown) (herror : A error) :
    ∀ s ∈ em.noMatch shown error, s.Clean D A := by
  simp [noMatch, hsubject, hshown, herror, globals]

end Sending

end Emission

/-! ## Whole expressions -/

/-- What generated code takes from its place. -/
def Placement.Clean (D : Prop) (A : String → Prop) : Placement → Prop
  | value => True
  | declaration _ name => name ∈ Emission.globals ∨ A name
  | destructuring _ target => target.Clean D A
  | assignment target => target.Clean D A

def Generated.Clean (D : Prop) (A : String → Prop) : Generated → Prop
  | expr e => e.Clean D A
  | stmts ss => ∀ s ∈ ss, s.Clean D A

theorem Placement.Clean.sink {placement : Placement} (h : placement.Clean D A) (span : Span)
    {temp label : Option String} (htemp : ∀ x ∈ temp, A x) (hlabel : ∀ x ∈ label, A x) :
    (placement.sink span temp label).Clean D A := by
  have htarget : ∀ target ∈ placement.target? span temp, target.Clean D A := by
    cases placement <;> cases temp <;> simp_all [Placement.Clean, target?]
  unfold Placement.sink
  split
  · rename_i target label hsome
    exact ⟨htarget target hsome, hlabel label rfl⟩
  · trivial

/-- Statements that are clean if a match expression, what its tests read and its sink are. -/
def Emission.Emits (D : Prop) (A : String → Prop) (em : Emission) (m : MatchExpr) (ss : List Stmt) : Prop :=
  m.Clean D A → em.subject.Clean D A → em.sink.Clean D A → ∀ s ∈ ss, s.Clean D A

theorem Emission.emits_unmatched (em : Emission) (m : MatchExpr) :
    Naming.Holds A (em.unmatched m) (em.Emits D A m) := by
  unfold unmatched
  cases hfallback : m.fallback with
  | some handler =>
    refine .pure fun hm hsubject hsink => List.forall_mem_singleton.mpr ?_
    exact clean_invoke hsubject hsink (by rintro _ ⟨⟩) (hm.fallback handler hfallback) em.span em.sink.targetNames
  | none =>
    change Naming.Holds A (if m.exhaustive then _ else _) _
    split
    · exact .pure fun _ _ _ => nofun
    · exact .bind .fresh fun shown => .bind .fresh fun error => .pure fun herror hshown _ hsubject _ =>
        clean_noMatch hsubject hshown herror

namespace Emission

theorem clean_callAtOnce {cache : Option String} {subject : Expr} (hcache : ∀ x ∈ cache, A x)
    (hsubject : subject.Clean D A) (hbody : ∀ s ∈ body, s.Clean D A) (span : Span) :
    (callAtOnce span (cache.map (·, subject)) body).Clean D A := by
  rw [callAtOnce, Part.clean_call, Part.clean_func]
  refine ⟨.plain rfl rfl (List.forall_mem_append.mpr ⟨?_, Part.forall_stmts.mpr hbody⟩), by simpa using fun _ _ => hsubject⟩
  rintro _ hparam
  obtain ⟨name, hname, rfl⟩ : ∃ name ∈ cache, Part.param ⟨span, .ident span name, none, false⟩ = _ := by
    simpa using hparam
  exact .plain rfl rfl (List.forall_mem_singleton.mpr ((Part.clean_name span).mpr (.inr (hcache name hname))))

theorem clean_place {placement : Placement} (h : placement.Clean D A) {temp : Option String}
    (htemp : ∀ x ∈ temp, A x) {labeled : Stmt} (hlabeled : labeled.Clean D A) (span : Span) :
    ∀ s ∈ place span labeled temp placement, s.Clean D A := by
  cases placement <;> cases temp <;> simp_all [Placement.Clean, place, place.rebind]

end Emission

namespace MatchExpr

variable {m : MatchExpr} {placement : Placement}

theorem clean_assemble (hm : m.Clean D A) (h : placement.Clean D A) {temp label cache : Option String}
    (htemp : ∀ x ∈ temp, A x) (hlabel : ∀ x ∈ label, A x) (hcache : ∀ x ∈ cache, A x)
    (hbody : ∀ s ∈ body, s.Clean D A) : (m.assemble placement temp label cache body).Clean D A := by
  cases label with
  | none => exact Emission.clean_callAtOnce hcache hm.subject hbody m.span
  | some label =>
    refine Emission.clean_place h htemp ?_ m.span
    cases cache <;> simp_all [hm.subject]

theorem clean_emit (m : MatchExpr) (options : GenerateOptions) (placement : Placement) :
    Naming.Holds A (m.emit options placement) fun code => m.Clean D A → placement.Clean D A → code.Clean D A := by
  refine .bind (.freshIf _) fun temp => .bind (.freshIf _) fun label => .bind (.freshIf _) fun cache => ?_
  let em : Emission := ⟨m.span, options.nullSafe, placement.sink m.span temp label,
    (cache.map (Expr.ident m.span)).getD m.subject⟩
  have hassemble : ∀ {branches rest : List Stmt}, em.Emits D A m rest → em.Emits D A m branches →
      (∀ x ∈ cache, A x) → (∀ x ∈ label, A x) → (∀ x ∈ temp, A x) → m.Clean D A → placement.Clean D A →
      (m.assemble placement temp label cache (branches ++ rest)).Clean D A := by
    intro branches rest hrest hbranches hcache hlabel htemp hm h
    have hsubject : em.subject.Clean D A := by
      cases cache with
      | none => exact hm.subject
      | some name => exact (Part.clean_ident m.span).mpr (.inr (hcache name rfl))
    have hsink := h.sink m.span htemp hlabel
    exact clean_assemble hm h htemp hlabel hcache
      (List.forall_mem_append.mpr ⟨hbranches hm hsubject hsink, hrest hm hsubject hsink⟩)
  refine .bind (Q := fun r => em.Emits D A m r.1) (.ofExcept ?_) ?_
  · rintro ⟨branches, always⟩ hr hm hsubject hsink
    exact Emission.clean_branches hsubject hsink hm.guards hm.handlers hr
  · rintro ⟨branches, _ | _⟩
    · exact .bind (em.emits_unmatched m) fun rest => .pure hassemble
    · exact .bind (Q := em.Emits D A m) (.pure fun _ _ _ => nofun) fun rest => .pure hassemble

/-- The code of a match expression is clean if the expression, its place and the names that are taken for
    it are. -/
theorem clean_code (m : MatchExpr) (options : GenerateOptions) (placement : Placement) :
    Naming.Holds A (m.code options placement) fun code => m.Clean D A → placement.Clean D A → code.Clean D A := by
  unfold code
  cases m.handlerFault? with
  | some fault => exact .throw fault
  | none =>
    cases placement.isStatement with
    | true => exact m.clean_emit options placement
    | false =>
      cases m.awaitFault? with
      | some fault => exact .throw fault
      | none => exact m.clean_emit options placement

end MatchExpr

/-! ## Chains -/

theorem Chain.Spells.clean {matcher : String} {calls : List Call} (h : Chain.Spells matcher calls e)
    (he : e.Clean D A) : ∀ c ∈ calls, ∀ arg ∈ c.args, arg.Clean D A := by
  induction h with
  | root span s args =>
    obtain ⟨_, hargs⟩ := List.forall_mem_cons.mp he.children
    exact List.forall_mem_singleton.mpr (Part.forall_exprs.mp hargs)
  | link span s property args _ ih =>
    obtain ⟨hcallee, hargs⟩ := List.forall_mem_cons.mp he.children
    have hobject := hcallee.children _ List.mem_cons_self
    exact List.forall_mem_append.mpr ⟨ih hobject, List.forall_mem_singleton.mpr (Part.forall_exprs.mp hargs)⟩

/-- What is read from a clean chain is clean. -/
theorem MatchNames.clean_of_read {names : MatchNames} {m : MatchExpr}
    (h : names.read e = .ok (some m)) (he : e.Clean D A) : m.Clean D A := by
  obtain ⟨root, operations, hspells, _, hroot, _, hadds⟩ := read_operations h
  obtain ⟨bs, hbs, hclauses, _⟩ := hadds.branches
  rw [List.nil_append] at hbs
  obtain ⟨hsubject, hargs⟩ := List.forall_mem_cons.mp (hspells.clean he)
  -- every branch is read from the arguments of one of the operations
  have hbranch : ∀ b ∈ m.branches, (∀ guard ∈ b.guard, guard.Clean D A) ∧ b.handler.Clean D A := by
    intro b hb
    rw [hbs] at hb
    obtain ⟨c, hc, hclause⟩ := exists_of_forall₂ hclauses.flip hb
    obtain ⟨patterns, handler, heq, hhandler, _⟩ := hclause.arguments
    have hc := hargs c (List.mem_of_mem_filter hc)
    rw [heq] at hc
    obtain ⟨hpatterns, hlast⟩ := List.forall_mem_append.mp hc
    obtain ⟨_, hguard⟩ := List.forall_mem_append.mp hpatterns
    rw [hhandler]
    exact ⟨fun guard hmem => hguard guard (Option.mem_toList.mpr hmem),
      Handler.clean_ofExpr (hlast handler List.mem_cons_self)⟩
  refine ⟨?_, fun b hb => (hbranch b hb).1, fun b hb => (hbranch b hb).2, fun handler hfallback => ?_⟩
  · rw [hroot] at hsubject
    exact hsubject m.subject List.mem_cons_self
  · obtain ⟨c, hc, arg, heq, rfl⟩ := hadds.fallback handler hfallback
    have hc := hargs c hc
    rw [heq] at hc
    exact Handler.clean_ofExpr (hc arg List.mem_cons_self)

end MatchChain
