import MatchChain.Proofs.Simulation.Operations

/-!
# The interpreter runs alike

The same code, run with the same number of steps on two machines that agree on its names, runs alike.
The proof follows the interpreter, function by function, and is by induction on the number of steps.
Expressions need scopes from which the same is seen; statements and patterns, which bind names in the
current scope, need scopes that bind the same names.
-/

set_option autoImplicit false

namespace MatchChain

variable {vs vs' : List Value} {v v' : Value} {e : Expr}

open Eval

/-- With `n` steps, every function of the interpreter runs alike. -/
structure Simulated (names : String → Prop) (n : Nat) : Prop where
  expr : ∀ {w s t e}, w.chains s t → e.Within names →
    Sim names w s t World.Rel (expr n e) (expr n e)
  link : ∀ {w s t e}, w.chains s t → e.Within names →
    Sim names w s t World.RelOption (link n e) (link n e)
  callee : ∀ {w s t e}, w.chains s t → e.Within names →
    Sim names w s t World.RelCallee (callee n e) (callee n e)
  args : ∀ {w s t es}, w.chains s t → (∀ e ∈ es, e.Within names) →
    Sim names w s t World.RelList (args n es) (args n es)
  prop : ∀ {w s t fs fs' p}, w.chains s t → w.RelFields fs fs' → p.Within names →
    Sim names w s t World.RelFields (prop n fs p) (prop n fs' p)
  propKey : ∀ {w s t key}, w.chains s t → key.Within names →
    Sim names w s t (fun _ => Eq) (propKey n key) (propKey n key)
  place : ∀ {w s t e}, w.chains s t → e.Within names →
    Sim names w s t (World.RelPlace names) (place n e) (place n e)
  assignment : ∀ {w s t target value} span op, w.chains s t → target.Within names →
    value.Within names → Sim names w s t World.Rel (assignment n span op target value)
      (assignment n span op target value)
  call : ∀ {w s t f f' this this' vs vs'} span, w.Rel f f' → w.Rel this this' → w.RelList vs vs' →
    Sim names w s t World.Rel (call n f this vs span) (call n f' this' vs' span)
  callClosure : ∀ {w s t fn c d kept kept' this this' vs vs'} span, fn.Within names → w.chains c d →
    w.RelOption kept kept' → w.Rel this this' → w.RelList vs vs' →
    Sim names w s t World.Rel (callClosure n ⟨fn, c, kept⟩ this vs span)
      (callClosure n ⟨fn, d, kept'⟩ this' vs' span)
  params : ∀ {w s t ps vs vs'}, w.scopes s t → (∀ p ∈ ps, p.Within names) → w.RelList vs vs' →
    Sim names w s t (fun _ => Eq) (params n ps vs) (params n ps vs')
  withDefault : ∀ {w s t v v' e}, w.chains s t → w.Rel v v' → OptionalWithin names e →
    Sim names w s t World.Rel (withDefault n v e) (withDefault n v' e)
  bindPattern : ∀ {w s t target v v'} isMutable, w.scopes s t → target.Within names → w.Rel v v' →
    Sim names w s t (fun _ => Eq) (bindPattern n target v isMutable)
      (bindPattern n target v' isMutable)
  bindElems : ∀ {w s t es vs vs'} isMutable, w.scopes s t → (∀ e ∈ es, e.Within names) →
    w.RelList vs vs' → Sim names w s t (fun _ => Eq) (bindElems n es vs isMutable)
      (bindElems n es vs' isMutable)
  bindProps : ∀ {w s t v v' ps} span taken isMutable, w.scopes s t → (∀ p ∈ ps, p.Within names) →
    w.Rel v v' → Sim names w s t (fun _ => Eq) (bindProps n span v taken ps isMutable)
      (bindProps n span v' taken ps isMutable)
  construct : ∀ {w s t fn es} span, w.chains s t → fn.Within names → (∀ e ∈ es, e.Within names) →
    Sim names w s t World.Rel (construct n span fn es) (construct n span fn es)
  stmts : ∀ {w s t ss}, w.scopes s t → (∀ a ∈ ss, a.Within names) →
    Sim names w s t World.RelFlow (stmts n ss) (stmts n ss)
  stmt : ∀ {w s t a}, w.scopes s t → a.Within names →
    Sim names w s t World.RelFlow (stmt n a) (stmt n a)
  loop : ∀ {w s t cond body} label, w.scopes s t → cond.Within names → body.Within names →
    Sim names w s t World.RelFlow (loop n cond body label) (loop n cond body label)
  tryCatch : ∀ {w s t body handler finalizer}, w.scopes s t → (∀ a ∈ body, a.Within names) →
    (∀ c ∈ handler, c.Within names) → (∀ b ∈ finalizer, ∀ a ∈ b, a.Within names) →
    Sim names w s t World.RelFlow (tryCatch n body handler finalizer)
      (tryCatch n body handler finalizer)
  catchBody : ∀ {w s t c v v'}, w.scopes s t → c.Within names → w.Rel v v' →
    Sim names w s t World.RelFlow (catchBody n c v) (catchBody n c v')

namespace Simulated

variable {names : String → Prop} {n : Nat} {w : World} {s t : Nat}

theorem zero (names : String → Prop) : Simulated names 0 := by
  constructor <;> intros <;> exact Sim.exhausted

/-! ## Expressions -/

theorem expr_succ (h : Simulated names n) (hst : w.chains s t) (he : e.Within names) :
    Sim names w s t World.Rel (Eval.expr (n + 1) e) (Eval.expr (n + 1) e) := by
  cases e with
  | ident span x =>
    rw [Eval.expr]
    exact .lookup hst (Expr.within_ident.mp he) span
  | str | num | bigint | bool | null =>
    rw [Eval.expr]
    exact .pure (.plain rfl)
  | thisRef =>
    rw [Eval.expr]
    exact .this
  | func _ fn =>
    rw [Eval.expr]
    exact .newClosure hst (Expr.within_func.mp he)
  | spread span =>
    rw [Eval.expr]
    exact .raise (.unsupported _ _)
  | template _ texts holes =>
    rw [Eval.expr]
    have hholes := Expr.within_template.mp he
    refine (Sim.mapM (R := fun _ => Eq) (r := fun a b => a = b ∧ a ∈ holes) (fun _ hab => hab)
      (List.forall₂_same.mpr fun a ha => ⟨rfl, ha⟩) ?_).map fun _ a b _ hab => ?_
    · rintro hole _ ⟨rfl, hmem⟩ w' hle
      exact (h.expr (hle.2.2 _ _ hst) (hholes hole hmem)).bind fun _ _ _ _ hv => .text hv
    · rw [List.forall₂_eq_eq_eq] at hab
      rw [hab]
      exact .plain rfl
  | array _ items =>
    rw [Eval.expr]
    exact (h.args hst (Expr.within_array.mp he)).bind fun _ _ _ _ hvs => .newArray hvs
  | object _ ps =>
    rw [Eval.expr]
    have hps := Expr.within_object.mp he
    refine Sim.bind (R := World.RelFields) (.foldlM .nil ?_) fun _ _ _ _ hfs => .newObject hfs
    exact fun p hp w' fs fs' hle hfs => h.prop (hle.2.2 _ _ hst) hfs (hps p hp)
  | unary span op operand =>
    have hoperand := Expr.within_unary.mp he
    have hunary := (h.expr hst hoperand).bind fun _ _ _ _ hv => Sim.unary span op hv
    cases op with
    | typeOf =>
      cases operand with
      | ident _ x =>
        rw [Eval.expr]
        refine (Sim.lookup? hst (Expr.within_ident.mp hoperand)).map fun _ _ _ _ ho => ?_
        rw [ho.getD.kindName]
        exact .plain rfl
      | _ => exact hunary
    | _ => exact hunary
  | binary span op l r =>
    rw [Eval.expr]
    obtain ⟨hl, hr⟩ := Expr.within_binary.mp he
    refine (h.expr hst hl).bind fun w' a a' hle ha => ?_
    have hst' := hle.2.2 _ _ hst
    rw [ha.keepsLeft? op]
    split
    · exact .pure ha
    · exact h.expr hst' hr
    · exact (h.expr hst' hr).bind fun w₁ b b' hle₁ hb => .binary span op (ha.mono hle₁) hb
  | conditional _ c t e =>
    rw [Eval.expr]
    obtain ⟨hc, ht, he⟩ := Expr.within_conditional.mp he
    refine (h.expr hst hc).bind fun w' a a' hle ha => ?_
    rw [ha.isTruthy]
    split
    · exact h.expr (hle.2.2 _ _ hst) ht
    · exact h.expr (hle.2.2 _ _ hst) he
  | assign span op target value =>
    rw [Eval.expr]
    obtain ⟨ht, hv⟩ := Expr.within_assign.mp he
    exact h.assignment span op hst ht hv
  | member | index | call =>
    rw [Eval.expr]
    exact (h.link hst he).map fun _ _ _ _ ho => ho.getD
  | construct span fn arguments =>
    rw [Eval.expr]
    obtain ⟨hf, hes⟩ := Expr.within_construct.mp he
    exact h.construct span hst hf hes

theorem link_succ (h : Simulated names n) (hst : w.chains s t) (he : e.Within names) :
    Sim names w s t World.RelOption (Eval.link (n + 1) e) (Eval.link (n + 1) e) := by
  have hstart := (h.expr hst he).map (Q := World.RelOption) fun _ _ _ _ hv => .some hv
  cases e with
  | member span object property optional =>
    rw [Eval.link]
    refine (h.link hst (Expr.within_member.mp he)).bind fun w' o o' hle ho => ?_
    cases ho with
    | none => exact .pure .none
    | some hv =>
      dsimp only
      rw [hv.isNullish]
      split
      · exact .pure .none
      · exact (Sim.getProperty hv property span).map fun _ _ _ _ hu => .some hu
  | index span object key optional =>
    rw [Eval.link]
    obtain ⟨hobject, hkey⟩ := Expr.within_index.mp he
    refine (h.link hst hobject).bind fun w' o o' hle ho => ?_
    cases ho with
    | none => exact .pure .none
    | some hv =>
      dsimp only
      rw [hv.isNullish]
      split
      · exact .pure .none
      · refine (h.expr (hle.2.2 _ _ hst) hkey).bind fun w₁ k k' hle₁ hk => ?_
        refine (Sim.text hk).bind fun w₂ x x' hle₂ hx => ?_
        obtain rfl := hx
        exact (Sim.getProperty ((hv.mono hle₁).mono hle₂) x span).map fun _ _ _ _ hu => .some hu
  | call span fn arguments optional =>
    rw [Eval.link]
    obtain ⟨hfn, hargs⟩ := Expr.within_call.mp he
    refine (h.callee hst hfn).bind fun w' o o' hle ho => ?_
    cases ho with
    | none => exact .pure .none
    | @some p q hpq =>
      obtain ⟨f, receiver⟩ := p
      obtain ⟨f', receiver'⟩ := q
      obtain ⟨hf, hreceiver⟩ := hpq
      dsimp only at hf hreceiver ⊢
      rw [hf.isNullish]
      split
      · exact .pure .none
      · refine (h.args (hle.2.2 _ _ hst) hargs).bind fun w₁ vs vs' hle₁ hvs => ?_
        exact (h.call span (hf.mono hle₁) (hreceiver.mono hle₁) hvs).map fun _ _ _ _ hu => .some hu
  | _ => exact hstart

theorem callee_succ (h : Simulated names n) (hst : w.chains s t) (he : e.Within names) :
    Sim names w s t World.RelCallee (Eval.callee (n + 1) e) (Eval.callee (n + 1) e) := by
  have hplain : Sim names w s t World.RelCallee (do return (← Eval.link n e).map (·, .undefined))
      (do return (← Eval.link n e).map (·, .undefined)) := by
    refine (h.link hst he).map fun _ o o' _ ho => ?_
    cases ho with
    | none => exact .none
    | some hv => exact .some ⟨hv, .plain rfl⟩
  cases e with
  | member span object property optional =>
    rw [Eval.callee]
    refine (h.link hst (Expr.within_member.mp he)).bind fun w' o o' hle ho => ?_
    cases ho with
    | none => exact .pure .none
    | some hv =>
      dsimp only
      rw [hv.isNullish]
      split
      · exact .pure .none
      · exact (Sim.getProperty hv property span).map fun _ _ _ hle₁ hu => .some ⟨hu, hv.mono hle₁⟩
  | index span object key optional =>
    rw [Eval.callee]
    obtain ⟨hobject, hkey⟩ := Expr.within_index.mp he
    refine (h.link hst hobject).bind fun w' o o' hle ho => ?_
    cases ho with
    | none => exact .pure .none
    | some hv =>
      dsimp only
      rw [hv.isNullish]
      split
      · exact .pure .none
      · refine (h.expr (hle.2.2 _ _ hst) hkey).bind fun w₁ k k' hle₁ hk => ?_
        refine (Sim.text hk).bind fun w₂ x x' hle₂ hx => ?_
        obtain rfl := hx
        have hv₂ := (hv.mono hle₁).mono hle₂
        exact (Sim.getProperty hv₂ x span).map fun _ _ _ hle₃ hu => .some ⟨hu, hv₂.mono hle₃⟩
  | _ => exact hplain

/-! ## Assignments -/

theorem assignment_succ (h : Simulated names n) {target value : Expr} (span : Span) (op : AssignOp)
    (hst : w.chains s t) (htarget : target.Within names) (hvalue : value.Within names) :
    Sim names w s t World.Rel (Eval.assignment (n + 1) span op target value)
      (Eval.assignment (n + 1) span op target value) := by
  rw [Eval.assignment]
  refine (h.place hst htarget).bind fun w₁ p p' hle₁ hp => ?_
  have hst₁ := hle₁.2.2 _ _ hst
  have hstore : ∀ {w₂ v v'}, w₁ ≤ w₂ → w₂.Rel v v' → Sim names w₂ s t World.Rel
      (do Eval.writePlace span v p; return v) (do Eval.writePlace span v' p'; return v') :=
    fun hle₂ hv => (Sim.writePlace (hle₂.2.2 _ _ hst₁) (hp.mono hle₂) span hv).bind
      fun _ _ _ hle₃ _ => .pure (hv.mono hle₃)
  cases op.binary? with
  | none => exact (h.expr hst₁ hvalue).bind fun _ _ _ hle₂ hv => hstore hle₂ hv
  | some binary =>
    refine (Sim.readPlace hst₁ hp span).bind fun w₂ u u' hle₂ hu => ?_
    have hst₂ := hle₂.2.2 _ _ hst₁
    dsimp only
    rw [hu.keepsLeft? binary]
    split
    · exact .pure hu
    · exact (h.expr hst₂ hvalue).bind fun _ _ _ hle₃ hv => hstore (World.le_trans hle₂ hle₃) hv
    · refine (h.expr hst₂ hvalue).bind fun w₃ v v' hle₃ hv => ?_
      exact (Sim.binary span binary (hu.mono hle₃) hv).bind fun w₄ _ _ hle₄ hr =>
        hstore (World.le_trans hle₂ (World.le_trans hle₃ hle₄)) hr

/-! ## Calls -/

theorem call_succ (h : Simulated names n) {f f' this this' : Value} (span : Span)
    (hf : w.Rel f f') (hthis : w.Rel this this') (hvs : w.RelList vs vs') :
    Sim names w s t World.Rel (Eval.call (n + 1) f this vs span)
      (Eval.call (n + 1) f' this' vs' span) := by
  have hrefused : Sim names w s t World.Rel
      (do Eval.typeError (.notCallable (← Eval.text f)) span)
      (do Eval.typeError (.notCallable (← Eval.text f')) span) :=
    (Sim.text hf).bind fun _ _ _ _ hx => hx ▸ .typeError _ _
  cases hf with
  | plain hp =>
    cases f with
    | function => cases hp
    | _ => exact hrefused
  | array | object => exact hrefused
  | function hc =>
    rw [Eval.call, Eval.call]
    refine .get fun m₁ m₂ hp ha => ?_
    obtain ⟨c, d, hi, hj, hcd⟩ := ha.cells _ _ hc
    rw [hi, hj]
    cases hcd with
    | native hv => exact .callNative _ hv hvs span
    | closure hfn hchain hkept => exact h.callClosure span hfn hchain hkept hthis hvs
    | items | fields => exact hrefused

theorem callClosure_succ (h : Simulated names n) {fn : Func} {c d : Nat} {kept kept' : Option Value}
    {this this' : Value} (span : Span) (hfn : fn.Within names)
    (hcd : w.chains c d) (hkept : w.RelOption kept kept') (hthis : w.Rel this this')
    (hvs : w.RelList vs vs') :
    Sim names w s t World.Rel (Eval.callClosure (n + 1) ⟨fn, c, kept⟩ this vs span)
      (Eval.callClosure (n + 1) ⟨fn, d, kept'⟩ this' vs' span) := by
  rw [Eval.callClosure, Eval.callClosure]
  obtain ⟨hparams, hbody⟩ := Func.within_iff.mp hfn
  refine (Sim.checkCall rfl span).bind fun w₁ _ _ hle₁ _ => ?_
  have hthis₁ : w₁.Rel (kept.getD this) (kept'.getD this') := by
    cases hkept with
    | none => exact hthis.mono hle₁
    | some hv => exact hv.mono hle₁
  refine .withFrame (hle₁.2.2 _ _ hcd) hthis₁ fun w₂ s' t' hle₂ hscope => ?_
  refine (h.params hscope hparams ((hvs.mono hle₁).mono hle₂)).bind fun w₃ _ _ hle₃ _ => ?_
  have hscope₃ := hle₃.2.1 _ _ hscope
  cases hcode : fn.body with
  | expr e =>
    rw [hcode] at hbody
    exact .ofScopes hscope₃ fun hchain => h.expr hchain (FuncBody.within_expr.mp hbody)
  | block body =>
    rw [hcode] at hbody
    exact (h.stmts hscope₃ (FuncBody.within_block.mp hbody)).map fun _ _ _ _ hf => hf.result

theorem construct_succ (h : Simulated names n) {fn : Expr} {es : List Expr} (span : Span)
    (hst : w.chains s t) (hfn : fn.Within names) (hes : ∀ e ∈ es, e.Within names) :
    Sim names w s t World.Rel (Eval.construct (n + 1) span fn es)
      (Eval.construct (n + 1) span fn es) := by
  rw [Eval.construct]
  refine (h.expr hst hfn).bind fun w₁ f f' hle₁ hf => ?_
  refine (h.args (hle₁.2.2 _ _ hst) hes).bind fun w₂ vs vs' hle₂ hvs => ?_
  have hf₂ := hf.mono hle₂
  have hrefused : Sim names w₂ s t World.Rel
      (do Eval.typeError (.notConstructor (← Eval.text f)) span)
      (do Eval.typeError (.notConstructor (← Eval.text f')) span) :=
    (Sim.text hf₂).bind fun _ _ _ _ hx => hx ▸ .typeError _ _
  have hmade : Sim names w₂ s t World.Rel
      (do
        let created ← Eval.newObject []
        let result ← Eval.call n f created vs span
        return if result.isReference then result else created)
      (do
        let created ← Eval.newObject []
        let result ← Eval.call n f' created vs' span
        return if result.isReference then result else created) := by
    refine (Sim.newObject .nil).bind fun w₃ o o' hle₃ ho => ?_
    refine (h.call span (hf₂.mono hle₃) ho (hvs.mono hle₃)).map fun w₄ r r' hle₄ hr => ?_
    rw [hr.isReference]
    split
    · exact hr
    · exact ho.mono hle₄
  cases hf with
  | plain hp =>
    cases f with
    | function => cases hp
    | _ => exact hrefused
  | array | object => exact hrefused
  | function hc =>
    refine .get fun m₁ m₂ hp ha => ?_
    obtain ⟨c, d, hi, hj, hcd⟩ := ha.cells _ _ (hle₂.1 _ _ hc)
    rw [hi, hj]
    cases hcd with
    | @native native v v' hv =>
      cases native with
      | error => exact .callNative .error (.plain rfl) hvs span
      | _ => exact .typeError _ _
    | closure | items | fields => exact hmade

/-! ## Binding patterns -/

theorem bindElems_succ (h : Simulated names n) {es : List BindingElem}
    (isMutable : Bool) (hst : w.scopes s t) (hes : ∀ e ∈ es, e.Within names)
    (hvs : w.RelList vs vs') :
    Sim names w s t (fun _ => Eq) (Eval.bindElems (n + 1) es vs isMutable)
      (Eval.bindElems (n + 1) es vs' isMutable) := by
  cases es with
  | nil => exact .pure rfl
  | cons e es =>
    obtain ⟨he, hrest⟩ := List.forall_mem_cons.mp hes
    cases e with
    | hole => exact h.bindElems isMutable hst hrest hvs.tail
    | item target default =>
      rw [Eval.bindElems, Eval.bindElems]
      refine .bind (R := World.Rel) ?_ fun w₁ v v' hle₁ hv => ?_
      · exact .ofScopes hst fun hchain => h.withDefault hchain hvs.headD he.2
      have hst₁ := hle₁.2.1 _ _ hst
      refine (h.bindPattern isMutable hst₁ he.1 hv).bind fun w₂ _ _ hle₂ _ => ?_
      exact h.bindElems isMutable (hle₂.2.1 _ _ hst₁) hrest ((hvs.tail.mono hle₁).mono hle₂)
    | rest target =>
      rw [Eval.bindElems, Eval.bindElems]
      refine (Sim.newArray hvs).bind fun w₁ v v' hle₁ hv => ?_
      have hst₁ := hle₁.2.1 _ _ hst
      refine (h.bindPattern isMutable hst₁ he hv).bind fun w₂ _ _ hle₂ _ => ?_
      exact h.bindElems isMutable (hle₂.2.1 _ _ hst₁) hrest .nil

theorem bindProps_succ (h : Simulated names n) {ps : List BindingProp} (span : Span)
    (taken : List String) (isMutable : Bool) (hst : w.scopes s t) (hps : ∀ p ∈ ps, p.Within names)
    (hv : w.Rel v v') :
    Sim names w s t (fun _ => Eq) (Eval.bindProps (n + 1) span v taken ps isMutable)
      (Eval.bindProps (n + 1) span v' taken ps isMutable) := by
  cases ps with
  | nil => exact .pure rfl
  | cons p ps =>
    obtain ⟨hp, hrest⟩ := List.forall_mem_cons.mp hps
    cases p with
    | rest _ x =>
      rw [Eval.bindProps, Eval.bindProps]
      refine (Sim.restOf hv taken).bind fun w₁ u u' hle₁ hu => ?_
      have hst₁ := hle₁.2.1 _ _ hst
      refine (Sim.define hst₁ hp hu isMutable).bind fun w₂ _ _ hle₂ _ => ?_
      exact h.bindProps span taken isMutable (hle₂.2.1 _ _ hst₁) hrest ((hv.mono hle₁).mono hle₂)
    | item key target default =>
      rw [Eval.bindProps, Eval.bindProps]
      refine .bind (R := fun _ => Eq) ?_ fun w₁ k k' hle₁ hk => ?_
      · exact .ofScopes hst fun hchain => h.propKey hchain hp.1
      obtain rfl := hk
      have hst₁ := hle₁.2.1 _ _ hst
      refine (Sim.getProperty (hv.mono hle₁) k span).bind fun w₂ u u' hle₂ hu => ?_
      have hst₂ := hle₂.2.1 _ _ hst₁
      refine .bind (R := World.Rel) ?_ fun w₃ x x' hle₃ hx => ?_
      · exact .ofScopes hst₂ fun hchain => h.withDefault hchain hu hp.2.2
      have hst₃ := hle₃.2.1 _ _ hst₂
      refine (h.bindPattern isMutable hst₃ hp.2.1 hx).bind fun w₄ _ _ hle₄ _ => ?_
      exact h.bindProps span _ isMutable (hle₄.2.1 _ _ hst₃) hrest
        ((((hv.mono hle₁).mono hle₂).mono hle₃).mono hle₄)

/-! ## Statements -/

theorem stmt_succ (h : Simulated names n) {a : Stmt} (hst : w.scopes s t) (ha : a.Within names) :
    Sim names w s t World.RelFlow (Eval.stmt (n + 1) a) (Eval.stmt (n + 1) a) := by
  have hexpr : ∀ {e : Expr}, e.Within names → Sim names w s t World.Rel (Eval.expr n e) (Eval.expr n e) :=
    fun he => .ofScopes hst fun hchain => h.expr hchain he
  cases a with
  | expr _ e =>
    rw [Eval.stmt]
    exact (hexpr (Stmt.within_expr.mp ha)).map fun _ _ _ _ _ => .normal
  | varDecl _ kind ds =>
    rw [Eval.stmt]
    have hds := Stmt.within_varDecl.mp ha
    refine Sim.map (R := fun _ => Eq) (.forM fun d hd w₁ hle₁ => ?_) fun _ _ _ _ _ => .normal
    obtain ⟨htarget, hinit⟩ := hds d hd
    have hst₁ := hle₁.2.1 _ _ hst
    cases hd' : d.init with
    | none => exact h.bindPattern _ hst₁ htarget (.plain rfl)
    | some e =>
      refine .bind (R := World.Rel) (.ofScopes hst₁ fun hchain => h.expr hchain (hinit e hd')) ?_
      exact fun w₂ v v' hle₂ hv => h.bindPattern _ (hle₂.2.1 _ _ hst₁) htarget hv
  | funcDecl | importDecl | empty =>
    rw [Eval.stmt]
    exact .pure .normal
  | breakTo | continueTo =>
    rw [Eval.stmt]
    first | exact .pure (.breakTo _) | exact .pure (.continueTo _)
  | ret _ value =>
    cases value with
    | none => exact .pure (.ret (.plain rfl))
    | some e =>
      exact (hexpr (Stmt.within_ret.mp ha e rfl)).map fun _ _ _ _ hv => .ret hv
  | ifElse _ cond thenBranch elseBranch =>
    obtain ⟨hcond, hthen, helse⟩ := Stmt.within_ifElse.mp ha
    cases elseBranch with
    | none =>
      rw [Eval.stmt]
      refine (hexpr hcond).bind fun w₁ v v' hle₁ hv => ?_
      rw [hv.isTruthy]
      split
      · exact h.stmt (hle₁.2.1 _ _ hst) hthen
      · exact .pure .normal
    | some otherwise =>
      rw [Eval.stmt]
      refine (hexpr hcond).bind fun w₁ v v' hle₁ hv => ?_
      rw [hv.isTruthy]
      split
      · exact h.stmt (hle₁.2.1 _ _ hst) hthen
      · exact h.stmt (hle₁.2.1 _ _ hst) (helse otherwise rfl)
  | block _ body =>
    rw [Eval.stmt]
    refine .ofScopes hst fun hchain => .withScope hchain fun w₁ s' t' _ hscope => ?_
    exact h.stmts hscope (Stmt.within_block.mp ha)
  | labeled _ label body =>
    have hbody := Stmt.within_labeled.mp ha
    have hplain := (h.stmt hst hbody).map fun _ _ _ _ hf => hf.afterLabel label
    cases body with
    | whileLoop _ cond body =>
      obtain ⟨hcond, hbody⟩ := Stmt.within_whileLoop.mp hbody
      exact h.loop (some label) hst hcond hbody
    | _ => exact hplain
  | throwing span e =>
    rw [Eval.stmt]
    exact (hexpr (Stmt.within_throwing.mp ha)).bind fun _ _ _ _ hv => .raise (.thrown hv)
  | tryCatch _ body handler finalizer =>
    obtain ⟨hbody, hhandler, hfinalizer⟩ := Stmt.within_tryCatch.mp ha
    exact h.tryCatch hst hbody hhandler hfinalizer
  | whileLoop _ cond body =>
    obtain ⟨hcond, hbody⟩ := Stmt.within_whileLoop.mp ha
    exact h.loop none hst hcond hbody

theorem succ (h : Simulated names n) : Simulated names (n + 1) where
  expr := h.expr_succ
  link := h.link_succ
  callee := h.callee_succ
  args := by
    intro w s t es hst hes
    rw [Eval.args]
    refine (Sim.mapM (R := World.RelList) (r := fun a b => a = b ∧ a ∈ es)
      (fun hle hvs => hvs.mono hle) (List.forall₂_same.mpr fun a ha => ⟨rfl, ha⟩) ?_).map ?_
    · rintro e _ ⟨rfl, hmem⟩ w' hle
      have he := hes e hmem
      have hst' := hle.2.2 _ _ hst
      have hone := (h.expr hst' he).map (Q := World.RelList) fun _ _ _ _ hv => .cons hv .nil
      cases e with
      | spread span inner =>
        exact (h.expr hst' (Expr.within_spread.mp he)).bind fun _ _ _ _ hv => .iterate hv span
      | _ => exact hone
    · intro w' groups groups' _ hgroups
      exact .flatten hgroups
  prop := by
    intro w s t fs fs' p hst hfs hp
    cases p with
    | init _ key value _ =>
      rw [Eval.prop, Eval.prop]
      refine (h.propKey hst hp.1).bind fun w₁ k k' hle₁ hk => ?_
      obtain rfl := hk
      refine (h.expr (hle₁.2.2 _ _ hst) hp.2).map fun w₂ v v' hle₂ hv => ?_
      exact ((hfs.mono hle₁).mono hle₂).set k hv
    | spread _ source =>
      rw [Eval.prop, Eval.prop]
      refine (h.expr hst hp).bind fun w₁ v v' hle₁ hv => ?_
      exact (Sim.spreadFields hv).map fun w₂ _ _ hle₂ hentries =>
        hentries.setAll ((hfs.mono hle₁).mono hle₂)
  propKey := by
    intro w s t key hst hkey
    cases key with
    | computed e =>
      rw [Eval.propKey]
      exact (h.expr hst (PropKey.within_computed.mp hkey)).bind fun _ _ _ _ hv => .text hv
    | ident | str | num => exact .pure rfl
  place := by
    intro w s t e hst he
    cases e with
    | ident _ x =>
      rw [Eval.place]
      exact .pure (.named (Expr.within_ident.mp he))
    | member _ object property _ =>
      rw [Eval.place]
      exact (h.expr hst (Expr.within_member.mp he)).map fun _ _ _ _ hv => .property property hv
    | index _ object key _ =>
      rw [Eval.place]
      obtain ⟨hobject, hkey⟩ := Expr.within_index.mp he
      refine (h.expr hst hobject).bind fun w₁ v v' hle₁ hv => ?_
      refine (h.expr (hle₁.2.2 _ _ hst) hkey).bind fun w₂ k k' hle₂ hk => ?_
      refine (Sim.text hk).map fun w₃ x x' hle₃ hx => ?_
      obtain rfl := hx
      exact .property x (((hv.mono hle₂).mono hle₃))
    | _ => exact .raise (.unsupported _ _)
  assignment := h.assignment_succ
  call := h.call_succ
  callClosure := h.callClosure_succ
  params := by
    intro w s t ps vs vs' hst hps hvs
    cases ps with
    | nil => exact .pure rfl
    | cons p ps =>
      rw [Eval.params, Eval.params]
      obtain ⟨hp, hps⟩ := List.forall_mem_cons.mp hps
      refine (Sim.argument p hvs).bind fun w₁ a b hle₁ hab => ?_
      have hst₁ := hle₁.2.1 _ _ hst
      refine .bind (R := World.Rel) ?_ fun w₂ v v' hle₂ hv => ?_
      · exact .ofScopes hst₁ fun hchain => h.withDefault hchain hab.1 hp.2
      have hst₂ := hle₂.2.1 _ _ hst₁
      refine (h.bindPattern true hst₂ hp.1 hv).bind fun w₃ _ _ hle₃ _ => ?_
      exact h.params (hle₃.2.1 _ _ hst₂) hps ((hab.2.mono hle₂).mono hle₃)
  withDefault := by
    intro w s t v v' e hst hv he
    have hkept : Sim names w s t World.Rel (pure v) (pure v') := .pure hv
    cases e with
    | none =>
      cases hv with
      | plain => cases v <;> exact hkept
      | array | object | function => exact hkept
    | some e =>
      cases hv with
      | plain =>
        cases v with
        | undefined => exact h.expr hst (he e rfl)
        | _ => exact hkept
      | array | object | function => exact hkept
  bindPattern := by
    intro w s t target v v' isMutable hst htarget hv
    cases target with
    | ident _ x =>
      rw [Eval.bindPattern, Eval.bindPattern]
      exact .define hst (Binding.within_ident.mp htarget) hv isMutable
    | array span elems =>
      rw [Eval.bindPattern, Eval.bindPattern]
      refine (Sim.iterate hv span).bind fun w₁ vs vs' hle₁ hvs => ?_
      exact h.bindElems isMutable (hle₁.2.1 _ _ hst) (Binding.within_array.mp htarget) hvs
    | object span ps =>
      rw [Eval.bindPattern, Eval.bindPattern]
      refine (Sim.checkParts hv span).bind fun w₁ _ _ hle₁ _ => ?_
      exact h.bindProps span [] isMutable (hle₁.2.1 _ _ hst) htarget.of_object (hv.mono hle₁)
  bindElems := h.bindElems_succ
  bindProps := h.bindProps_succ
  construct := h.construct_succ
  stmts := by
    intro w s t ss hst hss
    rw [Eval.stmts]
    refine (Sim.hoist hst hss).bind fun w₁ _ _ hle₁ _ => .sequence fun a ha w₂ hle₂ => ?_
    exact h.stmt (hle₂.2.1 _ _ (hle₁.2.1 _ _ hst)) (hss a ha)
  stmt := h.stmt_succ
  loop := by
    intro w s t cond body label hst hcond hbody
    rw [Eval.loop]
    refine .bind (R := World.Rel) (.ofScopes hst fun hchain => h.expr hchain hcond) ?_
    intro w₁ v v' hle₁ hv
    have hst₁ := hle₁.2.1 _ _ hst
    rw [hv.isTruthy]
    split
    · refine (h.stmt hst₁ hbody).bind fun w₂ f f' hle₂ hf => ?_
      have hagain := h.loop label (hle₂.2.1 _ _ hst₁) hcond hbody
      have hround := hf.afterRound label
      generalize f.afterRound label = a at hround
      generalize f'.afterRound label = a' at hround
      cases hround with
      | again => exact hagain
      | stop hflow => exact .pure hflow
    · exact .pure .normal
  tryCatch := by
    intro w s t body handler finalizer hst hbody hhandler hfinalizer
    rw [Eval.tryCatch]
    refine .ofScopes hst fun hchain => ?_
    refine (Sim.attempt (.withScope hchain fun _ _ _ _ hs => h.stmts hs hbody)).bind ?_
    intro w₁ r r' hle₁ hr
    refine (Sim.recover (hle₁.2.2 _ _ hchain) hr fun c hc w₂ s' t' v v' hs hv => ?_).bind ?_
    · exact h.catchBody hs (hhandler c hc) hv
    intro w₂ r r' hle₂ hr
    refine .finish (hle₂.2.2 _ _ (hle₁.2.2 _ _ hchain)) hr fun b hb w₃ s' t' hs => ?_
    exact h.stmts hs (hfinalizer b hb)
  catchBody := by
    intro w s t c v v' hst hc hv
    rw [Eval.catchBody, Eval.catchBody]
    refine .bind (R := fun _ => Eq) ?_ fun w₁ _ _ hle₁ _ => h.stmts (hle₁.2.1 _ _ hst) hc.2
    cases hparam : c.param with
    | none => exact .pure rfl
    | some target => exact h.bindPattern true hst (hc.1 target hparam) hv

end Simulated

/-- The interpreter cannot tell machines apart that agree on the names of the code that it runs. -/
theorem simulated (names : String → Prop) : ∀ n, Simulated names n
  | 0 => .zero names
  | n + 1 => (simulated names n).succ

end MatchChain
