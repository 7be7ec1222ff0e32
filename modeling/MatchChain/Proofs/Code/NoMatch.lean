import MatchChain.Proofs.Code.Attempt
import MatchChain.Proofs.Code.Delivery

/-!
# Values that nothing matches

The statements after the last branch call the fallback, end without a value, or report the subject: as
JSON, or as its text if asking for JSON fails. The report is the same that dispatch raises.
-/

set_option autoImplicit false

namespace MatchChain

open Eval Outcome

variable {names own : String → Prop} {w : World} {m₁ m₂ : Machine}

/-! ## What is shown -/

theorem Agree.shown (h : Agree names w m₁ m₂) {v v' : Value} (hv : w.Rel v v') :
    w.Rel (m₁.heap.shown v) (m₂.heap.shown v') := by
  unfold Heap.shown
  rw [h.json hv]
  cases m₂.heap.json v' with
  | error => exact hv
  | ok json => cases json <;> exact .plain rfl

/-- The JSON text that a program asks for is what is shown; asking fails where there is none. -/
theorem Eval.run_stringify (receiver v : Value) (span : Span) (m : Machine) :
    (callNative .stringify receiver [v] span).run.run m = match m.heap.json v with
      | .ok _ => (.ok (m.heap.shown v), m)
      | .error fault => (.error (.raised (.type (.unserializable fault) span)), m) := by
  unfold callNative Heap.shown
  dsimp only [List.headD_cons]
  rw [run_bind_ok (run_get m)]
  rcases m.heap.json v with _ | _ | _ <;> rfl

theorem Eval.run_newError (message : String) (span : Span) (m : Machine) :
    (callNative .error .undefined [.str message] span).run.run m
      = (.ok (.object m.heap.size), m.allocated (.fields (EvalError.errorFields "Error" message))) := rfl

theorem Eval.run_noMatch (span : Span) (v : Value) (m : Machine) :
    (Eval.noMatch span v).run.run m = (.error (.raised (.thrown (.object m.heap.size) span)),
      m.allocated (.fields (EvalError.errorFields "Error"
        ("Pattern matching error: no pattern matches value " ++ m.heap.text (m.heap.shown v))))) := rfl

namespace Stage

variable {x y z : String} {v₁ v₂ : Value}

/-- The first machine binds a name of its own in its current scope. -/
theorem defined_own (h : Stage names w x v₁ v₂ m₁ m₂) (hy : ¬ names y) (hne : x ≠ y) (v : Variable) :
    Stage names w x v₁ v₂ (m₁.defined m₁.env.current y v) m₂ where
  aligned :=
    ⟨h.aligned.agree.defined_left hy _ v, h.aligned.chained, h.aligned.this, h.aligned.room⟩
  hidden := h.hidden
  subject := by
    obtain ⟨a, isMutable, howner⟩ := h.subject
    exact ⟨a, isMutable,
      (Scopes.owner?_define_of_ne h.aligned.agree.ordered₁ hne _ v _).trans howner⟩
  value := h.value

theorem owner?_defined (h : Stage names w x v₁ v₂ m₁ m₂) (y : String) (v : Variable) :
    (m₁.defined m₁.env.current y v).owner? y = some (m₁.env.current, v) :=
  Scopes.owner?_define_self h.aligned.agree.ordered₁ h.aligned.current_lt y v

/-- Assigns a value to a name of the first machine's own, in a block of its own. -/
theorem assigned (h : Stage names w x v₁ v₂ m₁ m₂) (hy : ¬ names y) (hown : own y) {a : Nat} {u v : Value}
    (howner : m₁.owner? y = some (a, ⟨u, true⟩)) {e : Expr}
    (he : limit (expr · e) m₁ = some (.ok v, m₁)) (span inner : Span) :
    ∃ m₁', limit (fun n => sequence (stmt n) [.expr span (.assign span .assign (.ident inner y) e)]) m₁
        = some (.ok .normal, m₁') ∧ Grown names own w m₁ m₂ w m₁' m₂ ∧ m₁.SamePlace m₁' ∧
      m₁'.scopes.binding a y = some ⟨v, true⟩ := by
  have hlt : a < m₁.scopes.count := Nat.lt_of_le_of_lt
    (Scopes.binding_of_owner? h.aligned.agree.ordered₁ howner).2 h.aligned.current_lt
  refine ⟨m₁.defined a y ⟨v, true⟩, ?_, h.aligned.agree.defined_own hy hown a _,
    ⟨rfl, rfl, rfl, rfl⟩, ?_⟩
  · rw [limit_sequence_cons, limit_stmt_expr, limit_expr_assign, he]
    simp only [Option.bind_some, andThen_ok, run_assign_owner howner, Outcome.ofRun?, following, limit_sequence_nil]
  · exact (Scopes.binding_define ..).trans (if_pos ⟨rfl, hlt, rfl⟩)

/-- The clause that shows the subject itself, in a scope that binds the error. -/
theorem rescues (h : Stage names w x v₁ v₂ m₁ m₂) (hy : ¬ names y) (hz : ¬ names z) (hyown : own y)
    (hzown : own z) (hxz : x ≠ z) (hyz : y ≠ z) {a : Nat} {u : Value}
    (howner : m₁.owner? y = some (a, ⟨u, true⟩)) (span : Span) (thrown : Value) :
    ∃ w' m₁', leaving Machine.left (limit (catchBody · ⟨some (.ident span z),
        [.expr span (.assign span .assign (.ident span y) (.ident span x))]⟩ thrown) m₁.entered)
        = some (.ok .normal, m₁') ∧
      Grown names own w m₁ m₂ w' m₁' m₂ ∧ m₁.SamePlace m₁' ∧
      m₁'.scopes.binding a y = some ⟨v₁, true⟩ := by
  have he := h.entered
  have hd := he.defined_own hz hxz ⟨thrown, true⟩
  have hownerD : (m₁.entered.defined m₁.entered.env.current z ⟨thrown, true⟩).owner? y
      = some (a, ⟨u, true⟩) :=
    (Scopes.owner?_define_of_ne he.aligned.agree.ordered₁ hyz _ _ _).trans
      ((h.aligned.owner?_entered y).trans howner)
  obtain ⟨m₁', hrun, hg, hplace, hbinding⟩ := hd.assigned hy hyown hownerD
    (limit_expr_ident hd.lookup? span) span span
  have hgz := he.aligned.agree.defined_own hz hzown m₁.entered.env.current ⟨thrown, true⟩
  obtain ⟨hg', hplace'⟩ := h.aligned.left_of_entered (hgz.trans hg)
    ((Machine.samePlace_defined ..).trans hplace)
  refine ⟨_, m₁'.left, ?_, hg', hplace', hbinding⟩
  rw [limit_catchBody span z (by rintro s (_ | ⟨_, ⟨⟩⟩); exact nofun), hrun]
  rfl

/-- The statement that finds what to show. -/
theorem shows (h : Stage names w x v₁ v₂ m₁ m₂) (hnames : ∀ x ∈ globalNames, names x)
    (hm : m₂.HasGlobals) (hy : ¬ names y) (hz : ¬ names z) (hyown : own y) (hzown : own z) (hxz : x ≠ z)
    (hyz : y ≠ z) (howner : m₁.owner? y = some (m₁.env.current, ⟨.undefined, true⟩))
    (em : Emission) :
    ∃ w' m₁', limit (stmt · (.tryCatch em.span
        [.expr em.span (.assign em.span .assign (.ident em.span y)
          (em.style.globalCall "JSON" "stringify" (.ident em.span x)))]
        (some ⟨some (.ident em.span z), [.expr em.span (.assign em.span .assign
          (.ident em.span y) (.ident em.span x))]⟩) none)) m₁ = some (.ok .normal, m₁') ∧
      Grown names own w m₁ m₂ w' m₁' m₂ ∧ m₁.SamePlace m₁' ∧
      m₁'.scopes.binding m₁.env.current y = some ⟨m₁.heap.shown v₁, true⟩ := by
  have he := h.entered
  have hownerE : m₁.entered.owner? y = some (m₁.env.current, ⟨.undefined, true⟩) :=
    (h.aligned.owner?_entered y).trans howner
  obtain ⟨receiver, hcall⟩ := limit_globalCall (e := .ident em.span x)
    (he.aligned.hasGlobals hnames hm).stringify nofun (.refl _)
    (limit_expr_ident he.lookup? em.span) em.style
  rw [run_stringify] at hcall
  have hplain : ∀ e : Expr, ∀ s ∈ [Stmt.expr em.span e], ∀ span fn, s ≠ .funcDecl span fn := by
    rintro e s (_ | ⟨_, ⟨⟩⟩)
    exact nofun
  rw [limit_stmt_tryCatch, limit_stmt_block, limit_stmts (hplain _)]
  cases hjson : m₁.heap.json v₁ with
  | ok json =>
    rw [show m₁.entered.heap.json v₁ = _ from hjson] at hcall
    obtain ⟨m₁', hrun, hg, hplace, hbinding⟩ := he.assigned hy hyown hownerE hcall em.span em.span
    obtain ⟨hg', hplace'⟩ := h.aligned.left_of_entered hg hplace
    refine ⟨_, m₁'.left, ?_, hg', hplace', hbinding⟩
    rw [hrun]
    rfl
  | error fault =>
    rw [show m₁.entered.heap.json v₁ = _ from hjson] at hcall
    have hshown : m₁.heap.shown v₁ = v₁ := by
      unfold Heap.shown
      rw [hjson]
    -- the try block leaves nothing behind, and the clause runs in a scope that binds the error
    have hthrown : limit (fun n => sequence (stmt n) [.expr em.span (.assign em.span .assign
        (.ident em.span y) (em.style.globalCall "JSON" "stringify" (.ident em.span x)))]) m₁.entered
        = some (.error (.type (.unserializable fault) em.span), m₁.entered) := by
      rw [limit_sequence_cons, limit_stmt_expr, limit_expr_assign, hcall]
      rfl
    have hge : Grown names noNames _ m₁.entered m₂ _ m₁.entered m₂ := .refl he.aligned.agree
    obtain ⟨hgl, hpl⟩ := h.aligned.left_of_entered hge (.refl _)
    have hl := h.moved hgl hpl (.refl m₂)
    let props := EvalError.errorFields "TypeError" (TypeFault.unserializable fault).message
    have hcaught : (caught (.type (.unserializable fault) em.span)).run.run m₁.entered.left
        = (.ok (.object m₁.entered.left.heap.size), m₁.entered.left.allocated (.fields props)) := rfl
    have hga : Grown names noNames _ _ m₂ _ _ m₂ := hl.aligned.agree.allocated_left (.fields props)
    have hpa := m₁.entered.left.samePlace_allocated (.fields props)
    have hownerC := (hl.aligned.owner? hga hpa hy).trans ((h.aligned.owner? hgl hpl hy).trans howner)
    obtain ⟨w', m₁', hrun, hg, hplace, hbinding⟩ := (hl.moved hga hpa (.refl m₂)).rescues hy hz hyown
      hzown hxz hyz hownerC em.span (.object m₁.entered.left.heap.size)
    have hown : ∀ x, noNames x → own x := fun _ hx => hx.elim
    refine ⟨w', m₁', ?_, ((hgl.trans hga).mono hown).trans hg, hpl.trans (hpa.trans hplace), ?_⟩
    · rw [hthrown]
      simp only [leaving, Option.map_some, Option.bind_some]
      rw [caughtBy_error rfl, hcaught]
      simp only [Outcome.ofRun?, Option.bind_some, andThen_ok]
      rw [hrun]
      rfl
    · rw [hshown, hbinding]

/-- A value that nothing matches is reported as dispatch does. -/
theorem noMatch (h : Stage names w x v₁ v₂ m₁ m₂) (hnames : ∀ x ∈ globalNames, names x)
    (hm : m₂.HasGlobals) {em : Emission} (hem : em.Reading x) (hy : ¬ names y) (hz : ¬ names z)
    (hyown : own y) (hzown : own z) (hxy : x ≠ y) (hxz : x ≠ z) (hyz : y ≠ z)
    {D : World → Machine → Machine → Flow → Value → Prop} :
    Related names own w D m₁ m₂ (limit (fun n => sequence (stmt n) (em.noMatch y z)) m₁)
      (limit (fun _ => Eval.noMatch em.span v₂) m₂) := by
  have hd := h.defined_own hy hxy ⟨.undefined, true⟩
  have hgd := h.aligned.agree.defined_own hy hyown m₁.env.current ⟨.undefined, true⟩
  obtain ⟨w', m₁', hshow, hg, hplace, hbinding⟩ :=
    hd.shows hnames hm hy hz hyown hzown hxz hyz (h.owner?_defined y _) em
  have hg' := hgd.trans hg
  have hplace' := (m₁.samePlace_defined ..).trans hplace
  have ha := h.aligned.moved hg' hplace' (.refl m₂)
  -- both machines show the same text
  have hlookup : m₁'.lookup? y = some (m₁.heap.shown v₁) :=
    ha.lookup?_of_binding (hplace'.env ▸ hbinding)
  have htext : m₁'.heap.text (m₁.heap.shown v₁) = m₂.heap.text (m₂.heap.shown v₂) :=
    ha.agree.text ((h.aligned.agree.shown h.value).mono hg'.le)
  let message := "Pattern matching error: no pattern matches value " ++ m₂.heap.text (m₂.heap.shown v₂)
  let props := EvalError.errorFields "Error" message
  have htemplate : limit (expr · (.template em.span
      [⟨"Pattern matching error: no pattern matches value ", em.span⟩, ⟨"", em.span⟩]
      [.ident em.span y])) m₁' = some (.ok (.str message), m₁') := by
    rw [limit_expr_template, limit_expr_ident hlookup]
    simp only [Option.bind_some, andThen_ok, htext, weave, String.append_empty]
    rfl
  obtain ⟨cell, receiver, herror, hcell⟩ := (ha.hasGlobals hnames hm).error
  have hconstruct := limit_expr_constructError herror hcell (e := .template ..) nofun htemplate em.span
    em.span
  have hlet : (VarKind.letVar != .constVar) = true := rfl
  have hthrow : limit (fun n => sequence (stmt n) (em.noMatch y z)) m₁
      = some (.error (.thrown (.object m₁'.heap.size) em.span), m₁'.allocated (.fields props)) := by
    unfold Emission.noMatch Emission.declare
    dsimp only
    rw [hem.subject, limit_sequence_cons, limit_stmt_declare_none]
    simp only [Option.bind_some, andThen_ok, following]
    rw [limit_sequence_cons, hlet, hshow]
    simp only [Option.bind_some, andThen_ok, following]
    rw [limit_sequence_cons, limit_stmt_throw, hconstruct, run_newError]
    rfl
  have hraised : limit (fun _ => Eval.noMatch em.span v₂) m₂
      = some (.error (.thrown (.object m₂.heap.size) em.span), m₂.allocated (.fields props)) := by
    rw [limit_const, run_noMatch]
    rfl
  have hprops : w'.RelFields props props := .cons ⟨rfl, .plain rfl⟩ (.cons ⟨rfl, .plain rfl⟩ .nil)
  rw [hthrow, hraised]
  exact .raised (hg'.trans (ha.agree.allocated (.fields hprops)))
    (hplace'.trans (m₁'.samePlace_allocated _)) (m₂.samePlace_allocated _)
    (.thrown (.object (.inr ⟨rfl, rfl⟩)))

end Stage

/-! ## After the last branch -/

/-- What follows the branches delivers what becomes of a value that none of them takes. -/
theorem Stage.otherwise {x y z : String} {v₁ v₂ : Value} {em : Emission} {a : Nat} {e : MatchExpr}
    (h : Stage names w x v₁ v₂ m₁ m₂) (hspan : em.span = e.span) (hem : em.Reading x)
    (hnames : ∀ x ∈ globalNames, names x) (hm : m₂.HasGlobals) (hready : em.sink.Ready names own a m₁)
    (hfallback : ∀ handler ∈ e.fallback, handler.CalledWithin names) (hy : ¬ names y) (hz : ¬ names z)
    (hyown : own y) (hzown : own z) (hxy : x ≠ y) (hxz : x ≠ z) (hyz : y ≠ z) :
    Related names own w (fun w m₁ _ flow v => em.sink.Delivered w a m₁ v flow) m₁ m₂
      (limit (fun n => sequence (stmt n) (em.rest e y z)) m₁) (limit (e.otherwise · v₂) m₂) := by
  unfold Emission.rest MatchExpr.otherwise
  cases hcase : e.fallback with
  | some handler =>
    dsimp only [Option.map_some]
    rw [limit_sequence_cons, ← hspan]
    exact (h.invoke hem hready (hfallback handler hcase) .nil).followed []
  | none =>
    dsimp only [Option.map_none]
    cases e.exhaustive with
    | true =>
      simp only [if_true]
      rw [limit_sequence_nil, limit_pure]
      exact .ok (.refl h.aligned.agree) (.refl m₁) (.refl m₂) (hready.delivered_undefined h.aligned)
    | false =>
      rw [← hspan]
      exact h.noMatch hnames hm hem hy hz hyown hzown hxy hxz hyz

end MatchChain
