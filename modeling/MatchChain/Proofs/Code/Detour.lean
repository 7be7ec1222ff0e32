import MatchChain.Proofs.Code.Delivery
import MatchChain.Proofs.Code.Returns
import MatchChain.Proofs.Eval.Rounds
import MatchChain.Proofs.Simulation.Twin

/-!
# Returns by way of a variable

A body whose returns assign a variable and jump to a label runs like the body itself: where the body returns a
value, the other jumps to the label, and everything but the variable is the same. The proof goes through the
statements of the body, with one lemma for each way in which a statement holds others.

What the variable holds in the end is subtle. A finalizer may override a return whose value has been assigned
already, and the assignment stays. So the variable holds the value that the body returns unless the body
overrides a return in a finalizer: then the assignment comes after the one that counts.
-/

set_option autoImplicit false

namespace MatchChain

variable {r r' : Except EvalError Flow} {body body' : List Stmt} {D : String → Prop}

open Eval Outcome

/-! ## Simple statements -/

namespace Eval

/-- A step that ends, if it raises no error, with a flow of some kind. -/
def Yields (P : Flow → Prop) (act : Eval Flow) : Prop := ∀ m f, (act.run.run m).1 = .ok f → P f

namespace Yields

variable {P : Flow → Prop}

theorem pure {f : Flow} (h : P f) : Yields P (Pure.pure f) := by
  intro m f' heq
  rw [run_pure] at heq
  cases heq
  exact h

theorem raise (e : EvalError) : Yields P (Eval.raise e) := by
  rintro m f ⟨⟩

theorem bind {α : Type} {act : Eval α} {k : α → Eval Flow} (h : ∀ a, Yields P (k a)) : Yields P (act >>= k) := by
  intro m f heq
  rw [run_bind] at heq
  generalize act.run.run m = r at heq
  rcases r with ⟨_ | a, m'⟩
  · cases heq
  · exact h a m' f heq

theorem of_limit {act : Nat → Eval Flow} (h : ∀ n, Yields P (act n)) {m m' : Machine} {f : Flow}
    (hrun : limit act m = some (.ok f, m')) : P f := by
  obtain ⟨n, hn⟩ := eventually_of_limit hrun
  refine h n m f ?_
  rw [hn n (Nat.le_refl n)]
  rfl

end Yields

/-- A simple statement ends normally or with the jump that it is. -/
theorem yields_of_isSimple {s : Stmt} (h : s.isSimple = true) {P : Flow → Prop} (hnormal : P .normal)
    (hbreak : ∀ label, s.label? = label → P (.breakTo label))
    (hcontinue : ∀ label, s.label? = label → P (.continueTo label)) (n : Nat) : Yields P (stmt n s) := by
  cases n with
  | zero => rintro m f ⟨⟩
  | succ n =>
    cases s with
    | ret | ifElse | block | labeled | tryCatch | whileLoop => cases h
    | expr | varDecl =>
      rw [Eval.stmt]
      exact .bind fun _ => .pure hnormal
    | throwing =>
      rw [Eval.stmt]
      exact .bind fun _ => .raise _
    | breakTo span label => exact .pure (hbreak label rfl)
    | continueTo span label => exact .pure (hcontinue label rfl)
    | funcDecl | importDecl | empty => exact .pure hnormal

theorem balanced_of_isSimple {s : Stmt} (h : s.isSimple = true)
    (hD : ∀ x ∈ s.declaredNames, D x) (n : Nat) : Balanced D (stmt n s) := by
  cases n with
  | zero => exact .exhausted
  | succ n =>
    cases s with
    | ret | ifElse | block | labeled | tryCatch | whileLoop => cases h
    | expr _ e =>
      rw [Eval.stmt]
      exact .bind ((allSteady_self n).expr e).balanced fun _ => .pure _
    | varDecl _ _ ds =>
      exact ((allSteady_self n).varDecl_succ fun d hd x hx => hD x (List.mem_flatMap.mpr ⟨d, hd, hx⟩)).balanced
    | throwing _ e =>
      rw [Eval.stmt]
      exact .bind ((allSteady_self n).expr e).balanced fun _ => .raise _
    | funcDecl | breakTo | continueTo | importDecl | empty => exact .pure _

end Eval

/-! ## The two machines -/

/-- A variable of an older scope is found from outside the scope that is left. -/
theorem Machine.owner?_left {cells : Nat → Prop} {bindings : Nat → String → Prop} {m m' : Machine}
    (hkept : Kept cells bindings m.entered m') (ho : m'.scopes.Ordered) (hplace : m.entered.SamePlace m')
    {x : String} {a : Nat} {v : Variable} (ha : a < m.scopes.count) (howner : m'.owner? x = some (a, v)) :
    m'.left.owner? x = some (a, v) := by
  have hcurrent : m'.env.current = m.scopes.count := by rw [hplace.env]; rfl
  have houter : m'.left.env.current = m.env.current := by rw [(m.leadsBack_left m' hplace).1.env]
  have hparent : m'.scopes.parent m.scopes.count = some m.env.current := by
    rw [hkept.parent _ (Nat.lt_of_lt_of_eq (Nat.lt_succ_self _) (Scopes.count_alloc ..).symm)]
    exact (Scopes.parent_alloc ..).trans (if_pos rfl)
  unfold Machine.owner? at howner ⊢
  rw [hcurrent, Scopes.owner?_eq ho, hparent] at howner
  rw [houter]
  cases hbinding : m'.scopes.binding m.scopes.count x with
  | some u =>
    -- the scope that is left binds none of the older variables
    rw [hbinding] at howner
    cases howner
    exact absurd ha (Nat.lt_irrefl _)
  | none =>
    rw [hbinding] at howner
    exact howner

/-- Where the results of a body go: a variable, with the scope that binds it, and a label. If the body returns
    without a value, the name `undefined` is read, and `base` is the scope that binds it. -/
structure Route where
  target : String
  label : String
  home : Nat
  bare : Prop
  base : Nat
  apart : bare → "undefined" ≠ target

namespace Route

/-- All names but the variable's. -/
def names (ρ : Route) : String → Prop := fun x => x ≠ ρ.target

def own (ρ : Route) : String → Prop := fun x => x = ρ.target

theorem not_names_target (ρ : Route) : ¬ ρ.names ρ.target := fun h => h rfl

/-- The first machine is about to run the redirected code and the second the code itself. The variable holds
    `u`, and `undefined` is what it should be. -/
structure Facing (ρ : Route) (w : World) (u : Value) (m₁ m₂ : Machine) : Prop where
  aligned : Aligned ρ.names w m₁ m₂
  target : m₁.owner? ρ.target = some (ρ.home, ⟨u, true⟩)
  builtin : ρ.bare → m₂.owner? "undefined" = some (ρ.base, ⟨.undefined, false⟩)

namespace Facing

variable {ρ : Route} {w w' : World} {u u' : Value} {m₁ m₂ m₁' m₂' : Machine}

theorem current_lt_right (h : ρ.Facing w u m₁ m₂) : m₂.env.current < m₂.scopes.count :=
  (h.aligned.agree.inBounds _ _ h.aligned.chained).2

/-- The same code ran on both machines. -/
theorem moved (h : ρ.Facing w u m₁ m₂) (hg : Grown ρ.names noNames w m₁ m₂ w' m₁' m₂')
    (h₁ : m₁.SamePlace m₁') (h₂ : m₂.SamePlace m₂') (hD : ρ.bare → ¬ D "undefined")
    (hdeclares : m₂.Declares D m₂') : ρ.Facing w' u m₁' m₂' where
  aligned := h.aligned.moved hg h₁ h₂
  target := (h.aligned.owner? hg h₁ ρ.not_names_target).trans h.target
  builtin hbare := hdeclares.owner? h.aligned.agree.ordered₂ hg.agree.ordered₂ h.current_lt_right (hD hbare)
    (h.builtin hbare) rfl

/-- The same code runs on both machines. -/
theorem run {α β : Type} {R : World → α → β → Prop} {f : Nat → Eval α} {g : Nat → Eval β}
    (h : ρ.Facing w u m₁ m₂) (hf : Growing f) (hg : Growing g)
    (hsim : ∀ n, Sim ρ.names w m₁.env.current m₂.env.current R (f n) (g n))
    (hD : ρ.bare → ¬ D "undefined") (hbalanced : ∀ n, Balanced D (g n)) :
    Twin ρ.names noNames w (fun w' m₁' m₂' r r' => ρ.Facing w' u m₁' m₂' ∧ w'.RelExcept R r r') m₁ m₂
      (limit f m₁) (limit g m₂) := by
  refine (h.aligned.run hf hg hsim).twin.withEnd.imp fun w' m₁' m₂' r r' hgrown h₁ h₂ hr => ?_
  exact ⟨h.moved hgrown h₁ h₂ hD (declares_of_limit hbalanced hr.2), hr.1⟩

theorem expr (h : ρ.Facing w u m₁ m₂) {e : Expr} (he : e.Within ρ.names) :
    Twin ρ.names noNames w (fun w' m₁' m₂' r r' => ρ.Facing w' u m₁' m₂' ∧ w'.RelExcept World.Rel r r') m₁ m₂
      (limit (Eval.expr · e) m₁) (limit (Eval.expr · e) m₂) :=
  h.run (D := noNames) (growing_expr e) (growing_expr e)
    (fun n => (simulated _ n).expr h.aligned.chained he) (fun _ hx => hx) fun n => ((allSteady_self n).expr e).balanced

/-! ### Scopes -/

/-- Both machines enter a scope. -/
theorem grown_entered (h : ρ.Facing w u m₁ m₂) : Grown ρ.names ρ.own w m₁ m₂
    (w.withScope m₁.scopes.count m₂.scopes.count) m₁.entered m₂.entered :=
  (h.aligned.agree.deepened h.aligned.chained).congr rfl rfl rfl rfl rfl rfl

theorem entered (h : ρ.Facing w u m₁ m₂) :
    ρ.Facing (w.withScope m₁.scopes.count m₂.scopes.count) u m₁.entered m₂.entered where
  aligned := ⟨h.grown_entered.agree, .inr ⟨rfl, rfl⟩, h.aligned.this.mono h.grown_entered.le, h.aligned.room⟩
  target := (h.aligned.owner?_entered _).trans h.target
  builtin hbare :=
    (Scopes.owner?_alloc_self h.aligned.agree.ordered₂ h.current_lt_right _).trans (h.builtin hbare)

/-- The first machine enters a scope of its own. -/
theorem entered_left (h : ρ.Facing w u m₁ m₂) :
    ρ.Facing (w.withChain m₁.scopes.count m₂.env.current) u m₁.entered m₂ where
  aligned := h.aligned.entered_left
  target := (h.aligned.owner?_entered _).trans h.target
  builtin := h.builtin

theorem home_lt (h : ρ.Facing w u m₁ m₂) : ρ.home < m₁.scopes.count :=
  Nat.lt_of_le_of_lt (Scopes.binding_of_owner? h.aligned.agree.ordered₁ h.target).2 h.aligned.current_lt

theorem base_lt (h : ρ.Facing w u m₁ m₂) (hbare : ρ.bare) : ρ.base < m₂.scopes.count :=
  Nat.lt_of_le_of_lt (Scopes.binding_of_owner? h.aligned.agree.ordered₂ (h.builtin hbare)).2 h.current_lt_right

end Facing

/-! ## How the runs end -/

/-- A flow that is neither a return nor the jump in place of one. -/
structure Passes (ρ : Route) (f : Flow) : Prop where
  ne_ret : ∀ v, f ≠ .ret v
  ne_jump : f ≠ .breakTo (some ρ.label)

theorem passes_normal (ρ : Route) : ρ.Passes .normal := ⟨by rintro v ⟨⟩, by rintro ⟨⟩⟩

/-- The run of redirected code, from a machine whose variable held `u`, ended next to the run of the code, of
    which `ss` are the own statements. -/
inductive Ended (ρ : Route) (ss : List Stmt) (u : Value) (w : World) (m₁ m₂ : Machine) :
    Except EvalError Flow → Except EvalError Flow → Prop
  | returned {u' v : Value} : (∃ s ∈ ss, s.isReturn = true) → ρ.Facing w u' m₁ m₂ →
      ((∀ s ∈ ss, s.isSettled = true) → w.Rel u' v) →
      Ended ρ ss u w m₁ m₂ (.ok (.breakTo (some ρ.label))) (.ok (.ret v))
  | same {u' : Value} {flow : Flow} : ρ.Facing w u' m₁ m₂ → ((∀ s ∈ ss, s.isCalm = true) → u' = u) →
      ρ.Passes flow → Ended ρ ss u w m₁ m₂ (.ok flow) (.ok flow)
  | raised {u' : Value} {e e' : EvalError} : ρ.Facing w u' m₁ m₂ → ((∀ s ∈ ss, s.isCalm = true) → u' = u) →
      w.RelError e e' → Ended ρ ss u w m₁ m₂ (.error e) (.error e')

/-- Two pieces of code, the first of them with the returns of the second redirected. -/
def Alike (ρ : Route) (ss : List Stmt) (F G : Machine → Option (Outcome Flow)) : Prop :=
  ∀ w u m₁ m₂, ρ.Facing w u m₁ m₂ → w.scopes m₁.env.current m₂.env.current →
    Twin ρ.names ρ.own w (ρ.Ended ss u) m₁ m₂ (F m₁) (G m₂)

variable {ρ : Route} {ss ts : List Stmt} {F G : Machine → Option (Outcome Flow)} {w w' : World} {u u' : Value}
  {m₁ m₂ m₁' m₂' : Machine}

theorem noNames_own (ρ : Route) : ∀ x, noNames x → ρ.own x := fun _ hx => hx.elim

theorem bound_entered (w : World) (m₁ m₂ : Machine) :
    (w.withScope m₁.scopes.count m₂.scopes.count).scopes m₁.entered.env.current m₂.entered.env.current :=
  .inr ⟨rfl, rfl⟩

theorem bound_moved (h : w.scopes m₁.env.current m₂.env.current) (hle : w ≤ w') (h₁ : m₁.SamePlace m₁')
    (h₂ : m₂.SamePlace m₂') : w'.scopes m₁'.env.current m₂'.env.current := by
  rw [h₁.env, h₂.env]
  exact hle.2.1 _ _ h

/-- A part of the code ended so, and the rest did not come to run. -/
theorem Ended.widen (h : ρ.Ended ts u' w m₁ m₂ r r') (hts : ts ⊆ ss)
    (hu : (∀ s ∈ ss, s.isCalm = true) → u' = u) : ρ.Ended ss u w m₁ m₂ r r' := by
  cases h with
  | returned hret hface hvalue =>
    obtain ⟨s, hs, hreturn⟩ := hret
    exact .returned ⟨s, hts hs, hreturn⟩ hface fun hall => hvalue fun s hs => hall s (hts hs)
  | same hface hcalm hflow =>
    exact .same hface (fun hall => (hcalm fun s hs => hall s (hts hs)).trans (hu hall)) hflow
  | raised hface hcalm he =>
    exact .raised hface (fun hall => (hcalm fun s hs => hall s (hts hs)).trans (hu hall)) he

/-- The machines moved on without a change to what the runs ended with. -/
theorem Ended.refacing (h : ρ.Ended ss u w m₁ m₂ r r')
    (hface : ∀ u', ρ.Facing w u' m₁ m₂ → ρ.Facing w u' m₁' m₂') : ρ.Ended ss u w m₁' m₂' r r' := by
  cases h with
  | returned hret hface' hvalue => exact .returned hret (hface _ hface') hvalue
  | same hface' hcalm hflow => exact .same (hface _ hface') hcalm hflow
  | raised hface' hcalm he => exact .raised (hface _ hface') hcalm he

theorem Ended.agree (h : ρ.Ended ss u w m₁ m₂ r r') : Agree ρ.names w m₁ m₂ := by
  cases h with
  | returned _ hface _ | same hface _ _ | raised hface _ _ => exact hface.aligned.agree

theorem Alike.widen (h : ρ.Alike ts F G) (hts : ts ⊆ ss) : ρ.Alike ss F G := by
  intro w u m₁ m₂ hface hst
  exact (h w u m₁ m₂ hface hst).imp fun _ _ _ _ _ _ _ _ hr => hr.widen hts fun _ => rfl

/-! ## Simple statements and lists -/

/-- Flows that are no returns stand for themselves only. -/
theorem Ended.ofFlow (hface : ρ.Facing w u m₁ m₂)
    (hr : w.RelExcept World.RelFlow r r') (hpasses : ∀ f, r' = .ok f → ρ.Passes f) :
    ρ.Ended ss u w m₁ m₂ r r' := by
  cases r with
  | error e =>
    cases r' with
    | error e' => exact .raised hface (fun _ => rfl) hr
    | ok => exact hr.elim
  | ok flow =>
    cases r' with
    | error => exact hr.elim
    | ok flow' =>
      have hflow : w.RelFlow flow flow' := hr
      cases hflow with
      | ret _ => exact absurd rfl ((hpasses _ rfl).ne_ret _)
      | normal | breakTo | continueTo => exact .same hface (fun _ => rfl) (hpasses _ rfl)

theorem Alike.simple {s : Stmt} (hsimple : s.isSimple = true) (hs : s.Within ρ.names)
    (hlabel : s.label? ≠ some ρ.label) (hdeclared : ρ.bare → "undefined" ∉ s.declaredNames) :
    ρ.Alike [s] (limit (stmt · s)) (limit (stmt · s)) := by
  intro w u m₁ m₂ hface hst
  have hrun := hface.run (D := (· ∈ s.declaredNames)) (growing_stmt s) (growing_stmt s)
    (fun n => (simulated _ n).stmt hst hs) hdeclared (balanced_of_isSimple hsimple fun _ hx => hx)
  refine (hrun.mono ρ.noNames_own).withEnd.imp fun w' m₁' m₂' r r' _ _ _ hr => ?_
  refine .ofFlow hr.1.1 hr.1.2 fun f heq => ?_
  have hyields := yields_of_isSimple hsimple ρ.passes_normal
    (fun label hsame => ⟨by rintro v ⟨⟩, by rintro ⟨⟩; exact hlabel hsame⟩)
    fun label _ => ⟨by rintro v ⟨⟩, by rintro ⟨⟩⟩
  exact Yields.of_limit hyields (heq ▸ hr.2)

theorem Alike.nil : ρ.Alike [] (limit fun n => sequence (stmt n) []) (limit fun n => sequence (stmt n) []) := by
  intro w u m₁ m₂ hface _
  rw [limit_sequence_nil]
  exact .here hface.aligned.agree (.same hface (fun _ => rfl) ρ.passes_normal)

/-- A statement and those after it. -/
theorem Alike.cons {s s' : Stmt} {rest rest' : List Stmt} (hs : ρ.Alike ss (limit (stmt · s')) (limit (stmt · s)))
    (hrest : ρ.Alike ts (limit fun n => sequence (stmt n) rest') (limit fun n => sequence (stmt n) rest)) :
    ρ.Alike (ss ++ ts) (limit fun n => sequence (stmt n) (s' :: rest'))
      (limit fun n => sequence (stmt n) (s :: rest)) := by
  intro w u m₁ m₂ hface hst
  rw [limit_sequence_cons, limit_sequence_cons]
  refine (hs w u m₁ m₂ hface hst).bind (fun _ hx => hx) fun w' m₁' m₂' r r' hg h₁ h₂ hr => ?_
  have hstay : ρ.Ended (ss ++ ts) u w' m₁' m₂' r r' := hr.widen (List.subset_append_left ..) fun _ => rfl
  cases hr with
  | returned | raised => exact .here hstay.agree hstay
  | @same u' flow hface' hcalm _ =>
    cases flow with
    | normal =>
      refine (hrest w' u' m₁' m₂' hface' (bound_moved hst hg.le h₁ h₂)).imp fun _ _ _ _ _ _ _ _ hr => ?_
      exact hr.widen (List.subset_append_right ..) fun hall =>
        hcalm fun t ht => hall t (List.mem_append_left _ ht)
    | ret | breakTo | continueTo => exact .here hstay.agree hstay

/-- What follows the same code on both machines, if it ended with a value. -/
theorem Facing.andThen {α β : Type} {R : World → α → β → Prop} {r : Except EvalError α} {r' : Except EvalError β}
    (hface : ρ.Facing w u m₁ m₂) (hr : w.RelExcept R r r') {k : α → Machine → Option (Outcome Flow)}
    {l : β → Machine → Option (Outcome Flow)}
    (h : ∀ a b, R w a b → Twin ρ.names ρ.own w (ρ.Ended ss u) m₁ m₂ (k a m₁) (l b m₂)) :
    Twin ρ.names ρ.own w (ρ.Ended ss u) m₁ m₂ (Outcome.andThen k (r, m₁)) (Outcome.andThen l (r', m₂)) := by
  cases r with
  | error e =>
    cases r' with
    | error e' => exact .here hface.aligned.agree (.raised hface (fun _ => rfl) hr)
    | ok => exact hr.elim
  | ok a =>
    cases r' with
    | error => exact hr.elim
    | ok b => exact h a b hr

/-- What follows redirected code and the code itself, if they raised no error. -/
theorem Ended.andThen (hr : ρ.Ended ss u w m₁ m₂ r r')
    {k l : Flow → Machine → Option (Outcome Flow)}
    (h : ∀ f f', ρ.Ended ss u w m₁ m₂ (.ok f) (.ok f') →
      Twin ρ.names ρ.own w (ρ.Ended ss u) m₁ m₂ (k f m₁) (l f' m₂)) :
    Twin ρ.names ρ.own w (ρ.Ended ss u) m₁ m₂ (Outcome.andThen k (r, m₁)) (Outcome.andThen l (r', m₂)) := by
  have hagree := hr.agree
  cases hr with
  | returned hret hface hvalue => exact h _ _ (.returned hret hface hvalue)
  | same hface hcalm hflow => exact h _ _ (.same hface hcalm hflow)
  | raised hface hcalm he => exact .here hagree (.raised hface hcalm he)

/-- The functions that statements declare are bound before. -/
theorem Alike.hoisted (hhoist : hoist body' = hoist body)
    (hbody : ∀ s ∈ body, s.Within ρ.names) (hdeclared : ρ.bare → ∀ s ∈ body, "undefined" ∉ s.declaredNames)
    (h : ρ.Alike ss (limit fun n => sequence (stmt n) body') (limit fun n => sequence (stmt n) body)) :
    ρ.Alike ss (limit (stmts · body')) (limit (stmts · body)) := by
  intro w u m₁ m₂ hface hst
  have hundefined : ρ.bare → ¬ ∃ s ∈ body, "undefined" ∈ s.declaredNames := by
    intro hbare hex
    obtain ⟨s, hs, hx⟩ := hex
    exact hdeclared hbare s hs hx
  have hrun := hface.run (D := fun x => ∃ s ∈ body, x ∈ s.declaredNames) (growing_const (hoist body))
    (growing_const (hoist body)) (fun _ => .hoist hst hbody) hundefined
    fun _ => .hoist fun s hs x hx => ⟨s, hs, ?_⟩
  · rw [limit_const, limit_const] at hrun
    rw [limit_stmts_hoist, limit_stmts_hoist, hhoist]
    refine hrun.bind ρ.noNames_own fun w' m₁' m₂' r r' hg h₁ h₂ hr => ?_
    exact hr.1.andThen hr.2 fun _ _ _ => h w' u m₁' m₂' hr.1 (bound_moved hst hg.le h₁ h₂)
  · cases s with
    | funcDecl => exact Option.mem_toList.mpr hx
    | _ => cases hx

/-! ## Returns -/

/-- Where the results go. -/
def sink (ρ : Route) (span : Span) : Sink := .assign (.ident span ρ.target) ρ.label

/-- The first machine assigns the variable. -/
theorem Facing.grown_assigned (hface : ρ.Facing w u m₁ m₂) (v : Value) :
    Grown ρ.names ρ.own w m₁ m₂ w (m₁.defined ρ.home ρ.target ⟨v, true⟩) m₂ :=
  have hown : ρ.own ρ.target := rfl
  hface.aligned.agree.defined_own ρ.not_names_target hown ρ.home ⟨v, true⟩

theorem Facing.assigned (hface : ρ.Facing w u m₁ m₂) (v : Value) :
    ρ.Facing w v (m₁.defined ρ.home ρ.target ⟨v, true⟩) m₂ where
  aligned := hface.aligned.moved (hface.grown_assigned v) (m₁.samePlace_defined ..) (.refl m₂)
  target := Scopes.owner?_define_owner hface.aligned.agree.ordered₁ hface.aligned.current_lt hface.target _
  builtin := hface.builtin

/-- The built-in constant is the same to both machines. -/
theorem Facing.undefined (hface : ρ.Facing w u m₁ m₂) (hbare : ρ.bare) :
    m₁.lookup? "undefined" = some .undefined := by
  have hlookup := hface.aligned.agree.lookup (ρ.apart hbare) hface.aligned.chained
  rw [show m₂.scopes.lookup _ _ = _ from Machine.lookup?_of_owner? (hface.builtin hbare)] at hlookup
  show m₁.scopes.lookup _ _ = _
  generalize m₁.scopes.lookup m₁.env.current "undefined" = found at hlookup
  cases hlookup with
  | some hv =>
    cases hv with
    | plain => rfl

/-- Where the one machine returns, the other delivers and jumps. -/
theorem Facing.exit (hface : ρ.Facing w u m₁ m₂) {value : Option Expr} (hvalue : OptionalWithin ρ.names value)
    (hbare : value = none → ρ.bare) (inner span s : Span) (rest : List Stmt) :
    Twin ρ.names ρ.own w (ρ.Ended [.ret s value] u) m₁ m₂
      (limit (fun n => sequence (stmt n) ((ρ.sink inner).exit span value ++ rest)) m₁)
      (limit (stmt · (.ret s value)) m₂) := by
  -- the value that is returned is the one that is delivered
  have hrun : ∃ o₂, limit (stmt · (.ret s value)) m₂
      = o₂.bind (Outcome.andThen fun v m' => some (.ok (.ret v), m')) ∧
      Twin ρ.names noNames w (fun w' m₁' m₂' r r' => ρ.Facing w' u m₁' m₂' ∧ w'.RelExcept World.Rel r r') m₁ m₂
        (limit (Eval.expr · (value.getD (.ident span "undefined"))) m₁) o₂ := by
    cases value with
    | some e => exact ⟨_, limit_stmt_ret .., hface.expr (hvalue e rfl)⟩
    | none =>
      refine ⟨some (.ok .undefined, m₂), limit_stmt_ret_none .., ?_⟩
      rw [Option.getD_none, limit_expr_ident (hface.undefined (hbare rfl))]
      exact .here hface.aligned.agree ⟨hface, .plain rfl⟩
  obtain ⟨o₂, hret, hrun⟩ := hrun
  rw [hret, sink, Sink.exit, List.cons_append, List.cons_append, List.nil_append, limit_sequence_deliver]
  refine hrun.bind ρ.noNames_own fun w' m₁' m₂' r r' hg h₁ h₂ hr => hr.1.andThen hr.2 fun v v' hv => ?_
  rw [run_assign_owner hr.1.target]
  refine .ended (hr.1.grown_assigned v) (m₁'.samePlace_defined ..) (.refl m₂') ?_
  exact .returned ⟨_, List.mem_singleton.mpr rfl, rfl⟩ (hr.1.assigned v) fun _ => hv

/-- In the place of a single statement, delivering and jumping takes a block. -/
theorem Alike.exit {value : Option Expr} (hvalue : OptionalWithin ρ.names value) (hbare : value = none → ρ.bare)
    (inner span s : Span) : ρ.Alike [.ret s value] (limit (stmt · (.block span ((ρ.sink inner).exit span value))))
      (limit (stmt · (.ret s value))) := by
  intro w u m₁ m₂ hface _
  have hrun := hface.entered_left.exit hvalue hbare inner span s []
  rw [List.append_nil] at hrun
  rw [limit_stmt_block, limit_stmts ((ρ.sink inner).exit_ne_funcDecl span value), ← leaving_id (limit _ m₂)]
  refine hrun.leaving m₁.leadsBack_left m₂.leadsBack_id (hface.aligned.agree.entered_left hface.aligned.chained) ?_
  intro w' m₁' m₂' r r' hg h₁ h₂ hback hr
  refine hr.refacing fun u' hface' =>
    { aligned := hface.aligned.moved hback (m₁.leadsBack_left m₁' h₁).1 h₂
      target := Machine.owner?_left hg.kept₁ hg.agree.ordered₁ h₁ hface.home_lt hface'.target
      builtin := hface'.builtin }

/-! ## Blocks -/

/-- What runs in a scope of its own on both machines. -/
theorem Facing.scoped (hface : ρ.Facing w u m₁ m₂) {o₁ o₂ : Option (Outcome Flow)}
    (h : Twin ρ.names ρ.own (w.withScope m₁.scopes.count m₂.scopes.count) (ρ.Ended ss u) m₁.entered m₂.entered
      o₁ o₂) :
    Twin ρ.names ρ.own w (ρ.Ended ss u) m₁ m₂ (leaving Machine.left o₁) (leaving Machine.left o₂) := by
  refine h.leaving m₁.leadsBack_left m₂.leadsBack_left hface.grown_entered ?_
  intro w' m₁' m₂' r r' hg h₁ h₂ hback hr
  refine hr.refacing fun u' hface' =>
    { aligned := hface.aligned.moved hback (m₁.leadsBack_left m₁' h₁).1 (m₂.leadsBack_left m₂' h₂).1
      target := Machine.owner?_left hg.kept₁ hg.agree.ordered₁ h₁ hface.home_lt hface'.target
      builtin := fun hbare =>
        Machine.owner?_left hg.kept₂ hg.agree.ordered₂ h₂ (hface.base_lt hbare) (hface'.builtin hbare) }

theorem Alike.block (h : ρ.Alike ss (limit (stmts · body')) (limit (stmts · body)))
    (span : Span) : ρ.Alike ss (limit (stmt · (.block span body'))) (limit (stmt · (.block span body))) := by
  intro w u m₁ m₂ hface hst
  rw [limit_stmt_block, limit_stmt_block]
  exact hface.scoped (h _ u _ _ hface.entered (bound_entered ..))

/-! ## Conditions, labels and loops -/

/-- What is done with the value of a condition. -/
theorem Facing.condition (hface : ρ.Facing w u m₁ m₂) (hst : w.scopes m₁.env.current m₂.env.current) {e : Expr}
    (he : e.Within ρ.names) {k l : Value → Machine → Option (Outcome Flow)}
    (h : ∀ w' m₁' m₂' v v', ρ.Facing w' u m₁' m₂' → w'.scopes m₁'.env.current m₂'.env.current → w'.Rel v v' →
      Twin ρ.names ρ.own w' (ρ.Ended ss u) m₁' m₂' (k v m₁') (l v' m₂')) :
    Twin ρ.names ρ.own w (ρ.Ended ss u) m₁ m₂ ((limit (Eval.expr · e) m₁).bind (Outcome.andThen k))
      ((limit (Eval.expr · e) m₂).bind (Outcome.andThen l)) := by
  refine (hface.expr he).bind ρ.noNames_own fun w' m₁' m₂' r r' hg h₁ h₂ hr => ?_
  exact hr.1.andThen hr.2 fun v v' => h w' m₁' m₂' v v' hr.1 (bound_moved hst hg.le h₁ h₂)

theorem Alike.ifElse {cond : Expr} {s s' : Stmt} {other other' : Option Stmt} (hcond : cond.Within ρ.names)
    (hs : ρ.Alike ss (limit (stmt · s')) (limit (stmt · s))) (hother : ρ.Alike ts (otherwise other') (otherwise other))
    (span : Span) : ρ.Alike (ss ++ ts) (limit (stmt · (.ifElse span cond s' other')))
      (limit (stmt · (.ifElse span cond s other))) := by
  intro w u m₁ m₂ hface hst
  rw [limit_stmt_if, limit_stmt_if]
  refine hface.condition hst hcond fun w' m₁' m₂' v v' hface' hst' hv => ?_
  rw [hv.isTruthy]
  split
  · exact hs.widen (List.subset_append_left ..) w' u m₁' m₂' hface' hst'
  · exact hother.widen (List.subset_append_right ..) w' u m₁' m₂' hface' hst'

theorem Passes.afterLabel {f : Flow} (h : ρ.Passes f) (label : String) : ρ.Passes (f.afterLabel label) := by
  cases f with
  | ret | normal | continueTo => exact h
  | breakTo target =>
    cases target with
    | none => exact h
    | some target =>
      simp only [Flow.afterLabel]
      split
      · exact ρ.passes_normal
      · exact h

theorem Ended.afterLabel {f f' : Flow} (h : ρ.Ended ss u w m₁ m₂ (.ok f) (.ok f')) {label : String}
    (hlabel : label ≠ ρ.label) : ρ.Ended ss u w m₁ m₂ (.ok (f.afterLabel label)) (.ok (f'.afterLabel label)) := by
  cases h with
  | returned hret hface hvalue =>
    have hne : (ρ.label == label) = false := beq_eq_false_iff_ne.mpr hlabel.symm
    simp only [Flow.afterLabel, hne, Bool.false_eq_true, if_false]
    exact .returned hret hface hvalue
  | same hface hcalm hpasses => exact .same hface hcalm (hpasses.afterLabel label)

theorem Alike.labeled {body body' : Stmt} (hloop : ∀ span cond inner, body ≠ .whileLoop span cond inner)
    (hloop' : ∀ span cond inner, body' ≠ .whileLoop span cond inner) {label : String} (hlabel : label ≠ ρ.label)
    (h : ρ.Alike ss (limit (stmt · body')) (limit (stmt · body))) (span : Span) :
    ρ.Alike ss (limit (stmt · (.labeled span label body'))) (limit (stmt · (.labeled span label body))) := by
  intro w u m₁ m₂ hface hst
  rw [limit_stmt_labeled hloop, limit_stmt_labeled hloop']
  refine (h w u m₁ m₂ hface hst).bind (fun _ hx => hx) fun w' m₁' m₂' r r' hg h₁ h₂ hr => ?_
  exact hr.andThen fun f f' hr => .here hr.agree (hr.afterLabel hlabel)

/-- What becomes of a round that ended so. -/
theorem Ended.afterward {f f' : Flow} (h : ρ.Ended ss u w m₁ m₂ (.ok f) (.ok f')) {label : Option String}
    (hlabel : label ≠ some ρ.label) (hst : w.scopes m₁.env.current m₂.env.current) (hagain : ρ.Alike ss F G) :
    Twin ρ.names ρ.own w (ρ.Ended ss u) m₁ m₂ (afterward F m₁ (f.afterRound label))
      (afterward G m₂ (f'.afterRound label)) := by
  have hagree := h.agree
  cases h with
  | returned hret hface hvalue =>
    have hne : (label == some ρ.label) = false := beq_eq_false_iff_ne.mpr hlabel
    simp only [Flow.afterRound, hne, Bool.false_eq_true, if_false]
    exact .here hagree (.returned hret hface hvalue)
  | @same u' _ hface hcalm hpasses =>
    have hgo : Twin ρ.names ρ.own w (ρ.Ended ss u) m₁ m₂ (F m₁) (G m₂) :=
      (hagain w u' m₁ m₂ hface hst).imp fun _ _ _ _ _ _ _ _ hr => hr.widen (fun _ hs => hs) hcalm
    have hstop : ∀ g : Flow, ρ.Passes g →
        Twin ρ.names ρ.own w (ρ.Ended ss u) m₁ m₂ (some (.ok g, m₁)) (some (.ok g, m₂)) :=
      fun g hg => .here hagree (.same hface hcalm hg)
    cases f with
    | ret v => exact absurd rfl (hpasses.ne_ret v)
    | normal => exact hgo
    | breakTo target =>
      cases target with
      | none => exact hstop .normal ρ.passes_normal
      | some target =>
        simp only [Flow.afterRound]
        split
        · exact hstop .normal ρ.passes_normal
        · exact hstop _ hpasses
    | continueTo target =>
      cases target with
      | none => exact hgo
      | some target =>
        simp only [Flow.afterRound]
        split
        · exact hgo
        · exact hstop _ hpasses

theorem Alike.loop {cond : Expr} {body body' : Stmt} {label : Option String} (hcond : cond.Within ρ.names)
    (hlabel : label ≠ some ρ.label) (hbody : ρ.Alike ss (limit (stmt · body')) (limit (stmt · body))) :
    ρ.Alike ss (limit (loop · cond body' label)) (limit (loop · cond body label)) := by
  -- both loops take the same number of rounds
  have hrounds : ∀ k, ρ.Alike ss (rounds cond body' label k) (rounds cond body label k) := by
    intro k
    induction k with
    | zero => intro w u m₁ m₂ _ _; exact .never
    | succ k ih =>
      intro w u m₁ m₂ hface hst
      refine hface.condition hst hcond fun w' m₁' m₂' v v' hface' hst' hv => ?_
      rw [hv.isTruthy]
      split
      · refine (hbody w' u m₁' m₂' hface' hst').bind (fun _ hx => hx) fun w'' m₁'' m₂'' r r' hg h₁ h₂ hr => ?_
        exact hr.andThen fun f f' hr => hr.afterward hlabel (bound_moved hst' hg.le h₁ h₂) ih
      · exact .here hface'.aligned.agree (.same hface' (fun _ => rfl) ρ.passes_normal)
  intro w u m₁ m₂ hface hst
  exact .ofBounded (fun _ => limit_loop_eq_some) (fun _ => limit_loop_eq_some) fun k =>
    hrounds k w u m₁ m₂ hface hst

/-! ## Errors and finalizers -/

/-- Catch clauses, or none, that take over from the same error. -/
def Catches (ρ : Route) (ss : List Stmt) (handler' handler : Option CatchClause) : Prop :=
  ∀ w u m₁ m₂ e e', ρ.Facing w u m₁ m₂ → w.RelError e e' →
    Twin ρ.names ρ.own w (ρ.Ended ss u) m₁ m₂ (caughtBy handler' (.error e, m₁)) (caughtBy handler (.error e', m₂))

theorem Catches.none : ρ.Catches [] none none := fun _ _ _ _ _ _ hface he =>
  .here hface.aligned.agree (.raised hface (fun _ => rfl) he)

theorem Catches.some {param : Option Binding}
    (hparam : ∀ target ∈ param, target.Within ρ.names)
    (hdeclared : ρ.bare → ∀ target ∈ param, "undefined" ∉ target.names)
    (h : ρ.Alike ss (limit (stmts · body')) (limit (stmts · body))) :
    ρ.Catches ss (some ⟨param, body'⟩) (some ⟨param, body⟩) := by
  intro w u m₁ m₂ e e' hface he
  cases hcatchable : e.isCatchable with
  | false =>
    have hsame := he.isCatchable
    rw [hcatchable] at hsame
    simp only [caughtBy, hcatchable, ← hsame, Bool.false_eq_true, if_false]
    exact .here hface.aligned.agree (.raised hface (fun _ => rfl) he)
  | true =>
    rw [caughtBy_error hcatchable, caughtBy_error (he.isCatchable ▸ hcatchable)]
    have hrun := hface.run (D := noNames) (growing_const (caught e)) (growing_const (caught e'))
      (fun _ => .caught he) (fun _ hx => hx) fun _ => .caught e'
    rw [limit_const, limit_const] at hrun
    refine hrun.bind ρ.noNames_own fun w' m₁' m₂' r r' hg h₁ h₂ hr => hr.1.andThen hr.2 fun v v' hv => ?_
    have hin := hr.1.entered
    refine hr.1.scoped ?_
    cases param with
    | none =>
      rw [limit_catchBody_none, limit_catchBody_none]
      exact h _ u _ _ hin (bound_entered ..)
    | some target =>
      rw [limit_catchBody_param, limit_catchBody_param]
      have hbind := hin.run (D := (· ∈ target.names)) (growing_bindPattern target v true)
        (growing_bindPattern target v' true)
        (fun n => (simulated _ n).bindPattern true (bound_entered ..) (hparam target rfl)
          (hv.mono hr.1.grown_entered.le))
        (fun hbare => hdeclared hbare target rfl) fun n => ((allSteady_self n).bindPattern v' true fun _ hx => hx).balanced
      refine hbind.bind ρ.noNames_own fun w'' m₁'' m₂'' q q' hg' h₁' h₂' hq => hq.1.andThen hq.2 fun _ _ _ => ?_
      exact h w'' u m₁'' m₂'' hq.1 (bound_moved (bound_entered ..) hg'.le h₁' h₂')

/-- A block ended so under a catch clause. -/
theorem Ended.caught {handler handler' : Option CatchClause}
    (h : ρ.Ended ss u w m₁ m₂ r r') (hcatches : ρ.Catches ts handler' handler) :
    Twin ρ.names ρ.own w (ρ.Ended (ss ++ ts) u) m₁ m₂ (caughtBy handler' (r, m₁)) (caughtBy handler (r', m₂)) := by
  have hpass : ∀ (handler : Option CatchClause) (f : Flow) (m : Machine),
      caughtBy handler (.ok f, m) = some (.ok f, m) := by
    intro handler f m
    cases handler <;> rfl
  have hstay := h.widen (List.subset_append_left ss ts) fun _ => rfl
  cases h with
  | returned | same =>
    rw [hpass, hpass]
    exact .here hstay.agree hstay
  | raised hface hcalm he =>
    refine (hcatches _ _ _ _ _ _ hface he).imp fun _ _ _ _ _ _ _ _ hr => ?_
    exact hr.widen (List.subset_append_right ss ts) fun hall =>
      hcalm fun s hs => hall s (List.mem_append_left ts hs)

/-- How a block ended can wait: it still counts after code that left the variable as it was. -/
theorem Ended.resume (h : ρ.Ended ss u w m₁ m₂ r r') (hss : ss ⊆ ts) :
    ∃ u', ρ.Facing w u' m₁ m₂ ∧ ((∀ s ∈ ss, s.isCalm = true ∧ s.isReturn = false) → u' = u) ∧
      ∀ w' u'' m₁' m₂', w ≤ w' → ρ.Facing w' u'' m₁' m₂' →
        ((∀ s ∈ ts, s.isCalm = true) ∨ (∀ s ∈ ts, s.isSettled = true) → u'' = u') →
        ρ.Ended ts u w' m₁' m₂' r r' := by
  cases h with
  | returned hret hface hvalue =>
    obtain ⟨s, hs, hreturn⟩ := hret
    refine ⟨_, hface, fun hnone => ?_, fun w' u'' m₁' m₂' hle hface' hu => ?_⟩
    · rw [(hnone s hs).2] at hreturn
      cases hreturn
    · refine .returned ⟨s, hss hs, hreturn⟩ hface' fun hall => ?_
      rw [hu (.inr hall)]
      exact (hvalue fun s hs => hall s (hss hs)).mono hle
  | same hface hcalm hflow =>
    refine ⟨_, hface, fun hnone => hcalm fun s hs => (hnone s hs).1, fun w' u'' m₁' m₂' hle hface' hu => ?_⟩
    exact .same hface' (fun hall => (hu (.inl hall)).trans (hcalm fun s hs => hall s (hss hs))) hflow
  | raised hface hcalm he =>
    refine ⟨_, hface, fun hnone => hcalm fun s hs => (hnone s hs).1, fun w' u'' m₁' m₂' hle hface' hu => ?_⟩
    exact .raised hface' (fun hall => (hu (.inl hall)).trans (hcalm fun s hs => hall s (hss hs))) (he.mono hle)

/-- A block ended so before a finalizer. If the finalizer is calm the variable is what it was, unless the
    finalizer itself returns. -/
theorem Ended.finished {body body' all : List Stmt}
    (h : ρ.Ended ss u w m₁ m₂ r r') (hbody : ρ.Alike ts (limit (stmts · body')) (limit (stmts · body)))
    (hss : ss ⊆ all) (hts : ts ⊆ all)
    (hcalm : (∀ s ∈ all, s.isCalm = true) → ∀ s ∈ ss, s.isReturn = false)
    (hsettled : (∀ s ∈ all, s.isSettled = true) → ∀ s ∈ ts, s.isCalm = true) :
    Twin ρ.names ρ.own w (ρ.Ended all u) m₁ m₂ (finishedBy (some body') (r, m₁))
      (finishedBy (some body) (r', m₂)) := by
  obtain ⟨u', hface, hu, hresume⟩ := h.resume hss
  have hu' : (∀ s ∈ all, s.isCalm = true) → u' = u := fun hall =>
    hu fun s hs => ⟨hall s (hss hs), hcalm hall s hs⟩
  refine (hface.scoped (hbody _ u' _ _ hface.entered (bound_entered ..))).bind (fun _ hx => hx) ?_
  intro w' m₁' m₂' q q' hg h₁ h₂ hq
  have hstay : ρ.Ended all u w' m₁' m₂' q q' := hq.widen hts hu'
  cases hq with
  | returned | raised => exact .here hstay.agree hstay
  | @same u'' flow hface' hcalm' _ =>
    cases flow with
    | normal =>
      refine .here hface'.aligned.agree (hresume w' u'' m₁' m₂' hg.le hface' fun hall => hcalm' ?_)
      exact hall.elim (fun hcalm s hs => hcalm s (hts hs)) hsettled
    | ret | breakTo | continueTo => exact .here hstay.agree hstay

/-- Finalizers, or none, the first with the returns of the second redirected. -/
inductive Finishes (ρ : Route) : Option (List Stmt) → Option (List Stmt) → Prop
  | none : Finishes ρ none none
  | some {body body' : List Stmt} : ρ.Alike (ownOf body) (limit (stmts · body')) (limit (stmts · body)) →
      Finishes ρ (some body') (some body)

theorem Alike.tryCatch {handler handler' : Option CatchClause}
    {finalizer finalizer' : Option (List Stmt)}
    (hbody : ρ.Alike (ownOf body) (limit (stmts · body')) (limit (stmts · body)))
    (hcatches : ρ.Catches (ownCatch handler) handler' handler) (hfinishes : ρ.Finishes finalizer' finalizer)
    (span : Span) : ρ.Alike (Stmt.own (.tryCatch span body handler finalizer))
      (limit (stmt · (.tryCatch span body' handler' finalizer')))
      (limit (stmt · (.tryCatch span body handler finalizer))) := by
  intro w u m₁ m₂ hface hst
  rw [limit_stmt_tryCatch, limit_stmt_tryCatch]
  have hcaught := (hbody.block span w u m₁ m₂ hface hst).bind (fun _ hx => hx)
    fun _ _ _ _ _ _ _ _ hr => hr.caught hcatches
  have hparts : ownOf body ++ ownCatch handler ⊆ Stmt.own (.tryCatch span body handler finalizer) :=
    fun t ht => List.mem_cons_of_mem _ (List.mem_append_left _ ht)
  refine hcaught.bind (fun _ hx => hx) fun w' m₁' m₂' r r' hg h₁ h₂ hr => ?_
  cases hfinishes with
  | none => exact .here hr.agree (hr.widen hparts fun _ => rfl)
  | some hfinalizer =>
    refine hr.finished hfinalizer hparts ?_ (fun hall t ht => ?_) fun hall t ht => ?_
    · exact fun t ht => List.mem_cons_of_mem _ (List.mem_append_right _ ht)
    · simpa using List.all_eq_true.mp (hall _ (Stmt.mem_own _)) t ht
    · exact List.all_eq_true.mp (hall _ (Stmt.mem_own _)) t ht

end Route

end MatchChain
