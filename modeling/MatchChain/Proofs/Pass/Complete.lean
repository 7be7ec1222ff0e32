import MatchChain.Pass.Transform
import MatchChain.Proofs.Pass.Runs
import MatchChain.Proofs.Pass.Spending

/-!
# A walk settles what it walks

The walk of a tree never runs out of depth, and it leaves a settled tree: by induction on the depth, for all
parts of a walk at once.
-/

set_option autoImplicit false

namespace MatchChain

variable {s : Stmt} {e : Expr}

theorem Program.patternSpecifiers_append (p p' : Program) :
    patternSpecifiers (p ++ p') = patternSpecifiers p ++ patternSpecifiers p' := List.flatMap_append

/-- A statement that offers a call is no import. -/
theorem Stmt.patternSpecifiers_of_callSite? {site : Expr × Placement} (h : s.callSite? = some site) :
    Program.patternSpecifiers [s] = [] := by
  obtain ⟨call, placement⟩ := site
  cases offers_of_callSite? h <;> rfl

/-- Code that takes the place of a statement holds no import at its top. -/
theorem MatchExpr.patternSpecifiers_place (m : MatchExpr) (label : String) (cache : Option String) (body : List Stmt)
    (temp : Option String) (placement : Placement) :
    Program.patternSpecifiers (Emission.place m.span (m.block label cache body) temp placement) = [] := by
  cases placement <;> cases temp <;> rfl

/-- A statement that offers a call is deeper than the call and what receives its value. -/
theorem Depth.callSite_le {known : Span → Bool} {limit : Nat} {call : Expr} {placement : Placement}
    (h : s.callSite? = some (call, placement)) (hs : stmt known s ≤ limit) :
    4 + (placement.depth known + expr known call) ≤ limit := by
  cases Stmt.offers_of_callSite? h with
  | declarator span declSpan kind target =>
    rw [stmt, declarators, declarators, Nat.max_zero] at hs
    cases target <;> exact hs
  | assignment =>
    rw [stmt_assign] at hs
    exact hs

/-- A target that is walked is paid for. -/
theorem Depth.target_of_walked {known : Span → Bool} {target : Expr}
    (h : known target.span = false ∨ target.identName?.isSome = true) : Depth.target known target = expr known target := by
  rcases h with h | h
  · rw [Depth.target, h]
    rfl
  · cases target with
    | ident span name => exact Depth.target_ident known span name
    | _ => cases h

/-! ## Settled calls and statements -/

namespace Settled

variable {names : MatchNames} {fails offered : Bool} {w : Outlook}

/-- A call that has been offered is settled if its parts are. -/
theorem expr_of_parts_offered (h : Parts names true true e) : expr names true true e := by
  cases e with
  | call span callee args optional =>
    rw [expr]
    exact ⟨.inl rfl, .inl rfl, h⟩
  | _ => exact h

/-- A call that is not compiled is settled if its parts are. -/
theorem expr_of_parts (hcompiles : names.compiles false e = false)
    (hfails : names.recognizes e = true → fails = true) (h : Parts names fails (names.recognizes e) e) :
    expr names fails false e := by
  cases hcall : e.isCall with
  | false =>
    rw [MatchNames.recognizes_of_not_isCall hcall, parts_of_not_isCall hcall] at h
    exact h
  | true =>
    cases e with
    | call span callee args optional =>
      rw [expr]
      refine ⟨.inr hcompiles, ?_, h⟩
      cases hrecognizes : names.recognizes (.call span callee args optional) with
      | false => exact .inr rfl
      | true => exact .inl (hfails hrecognizes)
    | _ => cases hcall

theorem exprs_of_forall₂ {es es' : List Expr} (h : List.Forall₂ (fun e e' => names.Alike false e e' ∧
      expr names w.fails false e' ∧ w.Clean [.expr e']) es es') :
    es'.map names.face = es.map names.face ∧ exprs names w.fails es' ∧ w.Clean (es'.map .expr) := by
  induction h with
  | nil => exact ⟨rfl, trivial, .nil⟩
  | cons he _ ih => exact ⟨congrArg₂ List.cons he.1.face ih.1, ⟨he.2.1, ih.2.1⟩, he.2.2.cons ih.2.2⟩

theorem props_of_forall₂ {ps ps' : List Property} (h : List.Forall₂ (fun p p' => names.propFace p' = names.propFace p ∧
      prop names w.fails p' ∧ w.Clean [.property p']) ps ps') :
    ps'.map names.propFace = ps.map names.propFace ∧ props names w.fails ps' ∧ w.Clean (ps'.map .property) := by
  induction h with
  | nil => exact ⟨rfl, trivial, .nil⟩
  | cons hp _ ih => exact ⟨congrArg₂ List.cons hp.1 ih.1, ⟨hp.2.1, ih.2.1⟩, hp.2.2.cons ih.2.2⟩

theorem stmts_append {ss ss' : List Stmt} (h : stmts names fails ss) (h' : stmts names fails ss') :
    stmts names fails (ss ++ ss') :=
  stmts_iff.mpr (List.forall_mem_append.mpr ⟨stmts_iff.mp h, stmts_iff.mp h'⟩)

/-- A statement in a place that holds only one. -/
theorem stmt_toStmt {span : Span} {walked : Walked} (h : stmts names fails walked.toList) :
    stmt names fails (walked.toStmt span) := by
  cases walked with
  | same s => exact h.1
  | replaced ss => exact h

theorem stmts_of_forall₂ {ss : List Stmt} {ws : List Walked}
    (h : List.Forall₂ (fun s walked => stmts names w.fails walked.toList ∧
      Program.patternSpecifiers walked.toList = Program.patternSpecifiers [s] ∧ w.Keeps s walked) ss ws) :
    stmts names w.fails (ws.flatMap Walked.toList) ∧
      Program.patternSpecifiers (ws.flatMap Walked.toList) = Program.patternSpecifiers ss ∧
      w.Clean ((ws.flatMap Walked.toList).map .stmt) := by
  induction h with
  | nil => exact ⟨trivial, rfl, .nil⟩
  | @cons s walked ss ws hw _ ih =>
    rw [List.flatMap_cons, Program.patternSpecifiers_append, hw.2.1, ih.2.1, ← Program.patternSpecifiers_append,
      List.map_append]
    exact ⟨stmts_append hw.1 ih.1, rfl, hw.2.2.clean.append ih.2.2⟩

/-- A statement whose call is like one that was not compiled offers nothing that is compiled. -/
theorem site_of_alike (s' : Stmt) (h : Option.Rel (names.Alike (hasOffered names s)) s.offer? s'.offer?)
    (hcompiles : ∀ call, s.offer? = some call → names.compiles true call = false)
    (hfails : hasOffered names s = true → fails = true) :
    Site names fails s' ∧ hasOffered names s' = hasOffered names s := by
  rw [hasOffered] at h hfails ⊢
  rw [hasOffered, Site]
  generalize s.offer? = offer at *
  generalize s'.offer? = offer' at *
  cases h with
  | none => exact ⟨by rintro _ ⟨⟩, rfl⟩
  | @some call call' halike =>
    have hrecognizes : names.recognizes call' = names.recognizes call := halike.recognizes
    refine ⟨?_, hrecognizes⟩
    rintro _ ⟨⟩
    refine ⟨halike.compiles (hcompiles call rfl), ?_⟩
    rw [hrecognizes]
    cases hchain : names.recognizes call with
    | false => exact .inr rfl
    | true => exact .inl (hfails hchain)

theorem rel_offer?_assign {span assignSpan : Span} {op : AssignOp} {target target' value value' : Expr}
    (h : names.Alike offered value value') :
    Option.Rel (names.Alike offered) (Stmt.expr span (.assign assignSpan op target value)).offer?
      (Stmt.expr span (.assign assignSpan op target' value')).offer? := by
  rw [Stmt.offer?, Stmt.offer?, Stmt.callSite?_assign, Stmt.callSite?_assign, h.isCall]
  split
  · exact .some h
  · exact .none

theorem rel_offer?_varDecl {span : Span} {kind : VarKind} {ds ds' : List Declarator}
    (h : List.Forall₂ (fun d d' => Option.Rel (names.Alike offered) d.init d'.init) ds ds') :
    Option.Rel (names.Alike offered) (Stmt.varDecl span kind ds).offer? (Stmt.varDecl span kind ds').offer? := by
  cases h with
  | nil => exact .none
  | @cons d d' ds ds' hd hds =>
    cases hds with
    | nil =>
      rw [Stmt.offer?, Stmt.offer?, Stmt.callSite?_varDecl, Stmt.callSite?_varDecl]
      generalize d.init = init at hd ⊢
      generalize d'.init = init' at hd ⊢
      cases hd with
      | none => exact .none
      | @some e e' he =>
        rw [Option.filter_some, Option.filter_some, he.isCall]
        split
        · exact .some he
        · exact .none
    | cons => exact .none

/-- An expression statement that is no assignment offers nothing. -/
theorem stmt_of_not_isAssign {span : Span} (h : e.isAssign = false) (he : expr names fails false e) :
    stmt names fails (.expr span e) := by
  cases e with
  | assign => cases h
  | _ => exact he

theorem stmt?_of_rel {s s' : Option Stmt} {R : Stmt → Stmt → Prop}
    (h : Option.Rel (fun a b => stmt names fails b ∧ R a b) s s') : stmt? names fails s' := by
  cases h with
  | none => trivial
  | some hs => exact hs.1

theorem stmts?_iff {ss : Option (List Stmt)} : stmts? names fails ss ↔ ∀ ss' ∈ ss, stmts names fails ss' := by
  cases ss with
  | none => exact ⟨nofun, fun _ => trivial⟩
  | some ss => simp [stmts?]

theorem catchClause?_iff {c : Option CatchClause} : catchClause? names fails c
    ↔ ∀ c' ∈ c, (∀ b ∈ c'.param, binding names fails b) ∧ stmts names fails c'.body := by
  rcases c with _ | ⟨_ | param, body⟩ <;> simp [catchClause?]

theorem declarators_of_forall₂ {ds ds' : List Declarator} (h : List.Forall₂ (fun _ d' =>
      (binding names w.fails d'.target ∧ expr? names w.fails offered d'.init) ∧ w.Clean [.declarator d']) ds ds') :
    declarators names w.fails offered ds' ∧ w.Clean (ds'.map .declarator) := by
  induction h with
  | nil => exact ⟨trivial, .nil⟩
  | @cons d d' ds ds' hd _ ih =>
    obtain ⟨span, target, init⟩ := d'
    exact ⟨⟨hd.1, ih.1⟩, hd.2.cons ih.2⟩

end Settled

/-! ## The induction -/

namespace Pass

/-- A walk down to depth `n` gives settled and clean trees, of all trees that are not deeper. -/
structure Settles (ctx : PassContext) (n : Nat) : Prop where
  expr (known : Span → Bool) (offered : Bool) (e : Expr) : Depth.expr known e ≤ n →
    Runs ctx.names known (·.Clean [.expr e]) (expr ctx n offered e) fun w e' => (offered = true → w.fails = true) →
      ctx.names.Alike offered e e' ∧ Settled.expr ctx.names w.fails offered e' ∧ w.Clean [.expr e']
  parts (known : Span → Bool) (offered : Bool) (e : Expr) : Depth.expr known e ≤ n + 1 →
    Runs ctx.names known (·.Clean [.expr e]) (parts ctx n offered e) fun w e' => (offered = true → w.fails = true) →
      ctx.names.Alike offered e e' ∧ Settled.Parts ctx.names w.fails offered e' ∧ w.Clean [.expr e']
  prop (known : Span → Bool) (p : Property) : Depth.prop known p ≤ n →
    Runs ctx.names known (·.Clean [.property p]) (prop ctx n p) fun w p' =>
      ctx.names.propFace p' = ctx.names.propFace p ∧ Settled.prop ctx.names w.fails p' ∧ w.Clean [.property p']
  propKey (known : Span → Bool) (key : PropKey) : Depth.propKey known key ≤ n →
    Runs ctx.names known (·.Clean (Part.ofKey key)) (propKey ctx n key) fun w key' =>
      MatchNames.fieldName? key' = MatchNames.fieldName? key ∧ key'.awaits = key.awaits ∧
        Settled.propKey ctx.names w.fails key' ∧ w.Clean (Part.ofKey key')
  func (known : Span → Bool) (fn : Func) : Depth.func known fn ≤ n →
    Runs ctx.names known (·.Clean [.func fn]) (func ctx n fn) fun w fn' =>
      Settled.func ctx.names w.fails fn' ∧ w.Clean [.func fn']
  binding (known : Span → Bool) (b : Binding) : Depth.binding known b ≤ n →
    Runs ctx.names known (·.Clean [.binding b]) (binding ctx n b) fun w b' =>
      Settled.binding ctx.names w.fails b' ∧ w.Clean [.binding b']
  bindingElem (known : Span → Bool) (e : BindingElem) : Depth.elem known e ≤ n →
    Runs ctx.names known (·.Clean (Part.ofElem e)) (bindingElem ctx n e) fun w e' =>
      Settled.elem ctx.names w.fails e' ∧ w.Clean (Part.ofElem e')
  bindingProp (known : Span → Bool) (p : BindingProp) : Depth.bindingProp known p ≤ n →
    Runs ctx.names known (·.Clean (Part.ofBindingProp p)) (bindingProp ctx n p) fun w p' =>
      Settled.bindingProp ctx.names w.fails p' ∧ w.Clean (Part.ofBindingProp p')
  stmts (known : Span → Bool) (ss : List Stmt) : Depth.stmts known ss ≤ n →
    Runs ctx.names known (·.Clean (ss.map .stmt)) (stmts ctx n ss) fun w ss' =>
      Settled.stmts ctx.names w.fails ss' ∧ Program.patternSpecifiers ss' = Program.patternSpecifiers ss ∧
        w.Clean (ss'.map .stmt)
  stmt (known : Span → Bool) (s : Stmt) : Depth.stmt known s ≤ n →
    Runs ctx.names known (·.Clean [.stmt s]) (stmt ctx n s) fun w walked =>
      Settled.stmts ctx.names w.fails walked.toList ∧
        Program.patternSpecifiers walked.toList = Program.patternSpecifiers [s] ∧ w.Keeps s walked
  stmtParts (known : Span → Bool) (s : Stmt) : Depth.stmt known s ≤ n + 1 →
    (∀ call, s.offer? = some call → ctx.names.compiles true call = false) →
    Runs ctx.names known (·.Clean [.stmt s]) (stmtParts ctx n (Settled.hasOffered ctx.names s) s) fun w s' =>
      (Settled.hasOffered ctx.names s = true → w.fails = true) →
        Settled.stmt ctx.names w.fails s' ∧ Program.patternSpecifiers [s'] = Program.patternSpecifiers [s] ∧
          w.Keeps s (.same s')

namespace Settles

variable {ctx : PassContext} {n : Nat} {known : Span → Bool}

section Step

variable (h : Settles ctx n)

include h

/-- An expression that is offered if it is a call. -/
theorem offer (he : Depth.expr known e ≤ n) : Runs ctx.names known (·.Clean [.expr e]) (Pass.expr ctx n false e)
    fun w e' => ctx.names.Alike false e e' ∧ Settled.expr ctx.names w.fails false e' ∧ w.Clean [.expr e'] :=
  (h.expr known false e he).mono fun _ _ hq => hq nofun

theorem exprs {es : List Expr} (hes : Depth.exprs known es ≤ n) :
    Runs ctx.names known (·.Clean (es.map .expr)) (es.mapM (Pass.expr ctx n false)) fun w es' =>
      es'.map ctx.names.face = es.map ctx.names.face ∧ Settled.exprs ctx.names w.fails es' ∧ w.Clean (es'.map .expr) :=
  (Runs.mapM fun e he => h.offer (Depth.exprs_le_iff.mp hes e he)).mono fun _ _ => Settled.exprs_of_forall₂

theorem props {ps : List Property} (hps : Depth.props known ps ≤ n) :
    Runs ctx.names known (·.Clean (ps.map .property)) (ps.mapM (Pass.prop ctx n)) fun w ps' =>
      ps'.map ctx.names.propFace = ps.map ctx.names.propFace ∧ Settled.props ctx.names w.fails ps' ∧
        w.Clean (ps'.map .property) :=
  (Runs.mapM fun p hp => h.prop known p (Depth.props_le_iff.mp hps p hp)).mono fun _ _ => Settled.props_of_forall₂

theorem expr? {e : Option Expr} (he : Depth.expr? known e ≤ n) :
    Runs ctx.names known (·.Clean (Part.ofValue e)) (e.mapM (Pass.expr ctx n false)) fun w e' =>
      Settled.expr? ctx.names w.fails false e' ∧ w.Clean (Part.ofValue e') := by
  refine (Runs.mapM? (Q := fun _ w e' => Settled.expr ctx.names w.fails false e' ∧ w.Clean [.expr e']) ?_).mono ?_
  · rintro e rfl
    exact (h.offer he).mono fun _ _ hq => hq.2
  · rintro w _ (hq | _)
    · exact hq
    · exact ⟨trivial, .nil⟩

/-- Statements in a block. -/
theorem block {ss : List Stmt} (hss : Depth.stmts known ss ≤ n) :
    Runs ctx.names known (·.Clean (ss.map .stmt)) (Pass.stmts ctx n ss) fun w ss' =>
      Settled.stmts ctx.names w.fails ss' ∧ w.Clean (ss'.map .stmt) :=
  (h.stmts known ss hss).mono fun _ _ hq => ⟨hq.1, hq.2.2⟩

theorem expr_succ (known : Span → Bool) (offered : Bool) (e : Expr) (he : Depth.expr known e ≤ n + 1) :
    Runs ctx.names known (·.Clean [.expr e]) (Pass.expr ctx (n + 1) offered e) fun w e' =>
      (offered = true → w.fails = true) →
      ctx.names.Alike offered e e' ∧ Settled.expr ctx.names w.fails offered e' ∧ w.Clean [.expr e'] := by
  rw [Pass.expr]
  cases offered with
  | true =>
    refine (h.parts known true e he).mono fun w e' hq hfails => ?_
    obtain ⟨halike, hparts, hclean⟩ := hq hfails
    rw [hfails rfl] at hparts ⊢
    exact ⟨halike, Settled.expr_of_parts_offered hparts, hclean⟩
  | false =>
    have hplain := (h.parts known false e he).mono fun w e' hq => hq (by rintro ⟨⟩)
    cases hcall : e.isCall with
    | false =>
      refine hplain.mono fun w e' hq _ => ⟨hq.1, ?_, hq.2.2⟩
      exact (Settled.parts_of_not_isCall (hq.1.isCall.trans hcall)).mp hq.2.1
    | true =>
      refine Runs.compile (fun w hclean htidy => ⟨hclean htidy _ (.head _), trivial⟩) (fun hother => ?_)
        (fun hchain hcompiles => ?_) fun m code ordinal hread hcode => ?_
      · refine hplain.mono fun w e' hq _ => ⟨hq.1, ?_, hq.2.2⟩
        have halike : ctx.names.Alike (ctx.names.recognizes e) e e' := hother ▸ hq.1
        have hrecognizes := halike.recognizes.trans hother
        refine Settled.expr_of_parts (MatchNames.compiles_of_not_recognizes hrecognizes false) ?_ ?_
        · rw [hrecognizes]
          rintro ⟨⟩
        · rw [hrecognizes]
          exact hq.2.1
      · refine (h.parts known true e he).mono fun w e' hq hfails _ => ?_
        obtain ⟨hexact, hparts, hclean⟩ := hq fun _ => hfails
        have halike : ctx.names.Alike (ctx.names.recognizes e) e e' := hchain ▸ hexact
        refine ⟨hexact.weaken, Settled.expr_of_parts (hexact.compiles hcompiles) (fun _ => hfails) ?_, hclean⟩
        rw [halike.recognizes, hchain]
        exact hparts
      · obtain ⟨_, _, cache, em, body, _, _, rfl⟩ := MatchExpr.generate_value_shape hcode
        have hpaid : m.Paid known (Depth.expr known e) := MatchNames.paid_of_read hread
        have hdepth := MatchExpr.depth_generate_value hcode hpaid
        have hface := MatchNames.face_generate hread hcode
        refine (h.parts known false _ (Nat.le_trans hdepth he)).pre (fun w hclean htidy => ?_) |>.mono
          fun w e' hq _ => ?_
        · exact List.forall_mem_singleton.mpr (hclean htidy)
        obtain ⟨halike, hparts, hclean⟩ := hq (by rintro ⟨⟩)
        -- The code is a function that is called at once, which is no chain.
        have hnone := halike.spine_eq_none (MatchNames.spine_callAtOnce ..)
        have hrecognizes := MatchNames.recognizes_of_spine_eq_none hnone
        refine ⟨⟨halike.face.trans hface, .inr ⟨rfl, hnone⟩⟩,
          Settled.expr_of_parts (MatchNames.compiles_of_not_recognizes hrecognizes false) ?_ ?_, hclean⟩
        · rw [hrecognizes]
          rintro ⟨⟩
        · rw [hrecognizes]
          exact hparts

theorem parts_succ (known : Span → Bool) (offered : Bool) (e : Expr) (he : Depth.expr known e ≤ n + 1 + 1) :
    Runs ctx.names known (·.Clean [.expr e]) (Pass.parts ctx (n + 1) offered e) fun w e' =>
      (offered = true → w.fails = true) →
      ctx.names.Alike offered e e' ∧ Settled.Parts ctx.names w.fails offered e' ∧ w.Clean [.expr e'] := by
  rw [Pass.parts.eq_def]
  cases e with
  | ident | str | num | bigint | bool | null | thisRef =>
    exact .pure fun _ hclean _ => ⟨.refl _ _ _, trivial, hclean⟩
  | template span texts holes =>
    rw [Depth.expr] at he
    exact .node (.pre (fun _ hall => hall.right) (.map (h.exprs (by omega)) fun _ _ hq hn _ =>
      ⟨⟨MatchNames.face_template hq.1, .inl rfl⟩, hq.2.1, hn.rebuilt rfl rfl (hn.children.left.append hq.2.2)⟩))
  | array span items =>
    rw [Depth.expr] at he
    exact .node (.map (h.exprs (by omega)) fun _ _ hq hn _ =>
      ⟨⟨MatchNames.face_array hq.1, .inl rfl⟩, hq.2.1, hn.rebuilt rfl rfl hq.2.2⟩)
  | object span props =>
    rw [Depth.expr] at he
    exact .node (.map (h.props (by omega)) fun _ _ hq hn _ =>
      ⟨⟨MatchNames.face_object hq.1, .inl rfl⟩, hq.2.1, hn.rebuilt rfl rfl hq.2.2⟩)
  | func span fn =>
    rw [Depth.expr] at he
    exact .node (.map (h.func known fn (by omega)) fun _ fn' hq hn _ =>
      ⟨⟨MatchNames.face_func fn fn', .inl rfl⟩, hq.1, hn.rebuilt rfl rfl hq.2⟩)
  | unary span op operand =>
    rw [Depth.expr] at he
    exact .node (.map (h.offer (by omega)) fun _ _ hq hn _ =>
      ⟨⟨MatchNames.face_unary hq.1.face op, .inl rfl⟩, hq.2.1, hn.rebuilt rfl rfl hq.2.2⟩)
  | binary span op left right =>
    rw [Depth.expr] at he
    exact .node (.bind (h.offer (by omega)) fun _ => .map (h.offer (by omega)) fun _ _ hr hl hn _ =>
      ⟨⟨MatchNames.face_binary hl.1.face hr.1.face op, .inl rfl⟩, ⟨hl.2.1, hr.2.1⟩,
        hn.rebuilt rfl rfl (hl.2.2.cons hr.2.2)⟩)
  | conditional span cond thenExpr elseExpr =>
    rw [Depth.expr] at he
    exact .node (.bind (h.offer (by omega)) fun _ => .bind (h.offer (by omega)) fun _ =>
      .map (h.offer (by omega)) fun _ _ helse hthen hcond hn _ =>
      ⟨⟨MatchNames.face_conditional hcond.1.face hthen.1.face helse.1.face, .inl rfl⟩,
        ⟨hcond.2.1, hthen.2.1, helse.2.1⟩, hn.rebuilt rfl rfl (hcond.2.2.cons (hthen.2.2.cons helse.2.2))⟩)
  | assign span op target value =>
    rw [Depth.expr] at he
    exact .node (.bind (h.offer (by omega)) fun _ => .map (h.offer (by omega)) fun _ _ hv ht hn _ =>
      ⟨⟨MatchNames.face_assign ht.1.face hv.1.face op, .inl rfl⟩, ⟨ht.2.1, hv.2.1⟩,
        hn.rebuilt rfl rfl (ht.2.2.cons hv.2.2)⟩)
  | member span object property optional =>
    rw [Depth.expr] at he
    refine .node (.map (h.expr known offered object (by omega)) fun _ _ hq hn hfails => ?_)
    obtain ⟨halike, hobject, hclean⟩ := hq hfails
    exact ⟨halike.member span property optional, hobject, hn.rebuilt rfl rfl hclean⟩
  | index span object key optional =>
    rw [Depth.expr] at he
    exact .node (.bind (h.offer (by omega)) fun _ => .map (h.offer (by omega)) fun _ _ hk ho hn _ =>
      ⟨⟨MatchNames.face_index ho.1.face hk.1.face optional, .inl rfl⟩, ⟨ho.2.1, hk.2.1⟩,
        hn.rebuilt rfl rfl (ho.2.2.cons hk.2.2)⟩)
  | call span callee args optional =>
    obtain ⟨hcallee, hargs⟩ := Depth.parts_le_call he
    cases offered with
    | true =>
      refine .node (.bind (h.parts known true callee (by omega)) fun _ => .map (h.exprs hargs)
        fun w _ ha hc hn hfails => ?_)
      obtain ⟨halike, hcallee, hclean⟩ := hc hfails
      refine ⟨halike.call ha.1 span optional, ⟨?_, ha.2.1⟩, hn.rebuilt rfl rfl (hclean.cons ha.2.2)⟩
      rw [hfails rfl] at hcallee ⊢
      exact Settled.expr_of_parts_offered hcallee
    | false =>
      exact .node (.bind (h.offer hcallee) fun _ => .map (h.exprs hargs) fun _ _ ha hc hn _ =>
        ⟨hc.1.call ha.1 span optional, ⟨hc.2.1, ha.2.1⟩, hn.rebuilt rfl rfl (hc.2.2.cons ha.2.2)⟩)
  | construct span callee args =>
    rw [Depth.expr] at he
    exact .node (.bind (h.offer (by omega)) fun _ => .map (h.exprs (by omega)) fun _ _ ha hc hn _ =>
      ⟨⟨MatchNames.face_construct hc.1.face ha.1, .inl rfl⟩, ⟨hc.2.1, ha.2.1⟩,
        hn.rebuilt rfl rfl (hc.2.2.cons ha.2.2)⟩)
  | spread span operand =>
    rw [Depth.expr] at he
    exact .node (.map (h.offer (by omega)) fun _ _ hq hn _ =>
      ⟨⟨MatchNames.face_spread hq.1.face, .inl rfl⟩, hq.2.1, hn.rebuilt rfl rfl hq.2.2⟩)

/-- The parameters of a function. -/
theorem params {ps : List Param} (hps : Depth.params known ps ≤ n) :
    Runs ctx.names known (·.Clean (ps.map .param)) (ps.mapM fun p => do
      let target ← Pass.binding ctx n p.target
      return { p with target, default := ← p.default.mapM (Pass.expr ctx n false) })
      fun w ps' => Settled.params ctx.names w.fails ps' ∧ w.Clean (ps'.map .param) := by
  refine (Runs.parts (Q := fun fails p => Settled.binding ctx.names fails p.target ∧
    Settled.expr? ctx.names fails false p.default) (m := fun p => [.param p]) (fun _ _ => rfl) fun p hp => ?_).mono
    fun _ _ => And.imp_left Settled.params_iff.mpr
  obtain ⟨htarget, hdefault⟩ := Depth.params_le_iff.mp hps p hp
  exact .node (.bind (h.binding known p.target htarget) fun _ => .map (h.expr? hdefault) fun _ _ hd ht hn =>
    ⟨⟨ht.1, hd.1⟩, hn.rebuilt rfl rfl (ht.2.cons hd.2)⟩)

theorem stmt_succ (known : Span → Bool) (s : Stmt) (hs : Depth.stmt known s ≤ n + 1) :
    Runs ctx.names known (·.Clean [.stmt s]) (Pass.stmt ctx (n + 1) s) fun w walked =>
      Settled.stmts ctx.names w.fails walked.toList ∧
        Program.patternSpecifiers walked.toList = Program.patternSpecifiers [s] ∧ w.Keeps s walked := by
  rw [Pass.stmt]
  cases hsite : s.callSite? with
  | none =>
    have hoffer : s.offer? = none := by rw [Stmt.offer?, hsite]; rfl
    have hparts := h.stmtParts known s hs (by rw [hoffer]; rintro _ ⟨⟩)
    rw [Settled.hasOffered_of_callSite?_eq_none hsite] at hparts
    exact .map hparts fun _ _ hq => (hq (by rintro ⟨⟩)).imp_left fun hq => ⟨hq, trivial⟩
  | some site =>
    obtain ⟨call, placement⟩ := site
    have hoffer : s.offer? = some call := by rw [Stmt.offer?, hsite]; rfl
    have hdepth : placement.depth known + Depth.expr known call ≤ n := by
      have := Depth.callSite_le hsite hs
      omega
    have hsource (w : Outlook) (hclean : w.Clean [.stmt s]) (htidy : w.tidy) :
        call.Clean w.attached w.named ∧ placement.Clean w.attached w.named :=
      Stmt.clean_callSite? hsite (hclean htidy _ (.head _))
    refine .currentPlacement (fun w hclean htidy => (hsource w hclean htidy).2)
      fun placement' known' hknown hstatement hplacement => ?_
    rw [(Stmt.isStatement_of_callSite? hsite).2] at hstatement
    have hparts (hcompiles : ctx.names.compiles true call = false) := (h.stmtParts known s hs fun call' hcall => by
      cases hoffer.symm.trans hcall
      exact hcompiles).weaken hknown
    refine .compile (fun w hall htidy => ⟨(hsource w hall.1 htidy).1, hall.2 htidy⟩) (fun hother => ?_)
      (fun hchain hcompiles => ?_) fun m code ordinal hread hcode => ?_
    · have hparts := hparts (MatchNames.compiles_of_not_recognizes hother true)
      rw [Settled.hasOffered_of_callSite? hsite, hother] at hparts
      exact .pre (fun _ hall => hall.1) (.map hparts fun _ _ hq =>
        (hq (by rintro ⟨⟩)).imp_left fun hq => ⟨hq, trivial⟩)
    · rw [hstatement] at hcompiles
      have hparts := hparts hcompiles
      rw [Settled.hasOffered_of_callSite? hsite, hchain] at hparts
      exact .pre (fun _ hall => hall.1) (.map hparts fun _ _ hq hfails =>
        (hq fun _ => hfails).imp_left fun hq => ⟨hq, trivial⟩)
    · obtain ⟨_, cache, em, body, target, label, temp, _, _, _, rfl⟩ :=
        MatchExpr.generate_statement_shape hstatement hcode
      have hpaid : m.Paid known' (Depth.expr known' call) := MatchNames.paid_of_read hread
      have hcodeDepth := MatchExpr.depth_generate_statement hstatement hcode hpaid
      have hcall := Depth.expr_anti hknown call
      refine .pre (fun w hclean htidy => Part.forall_stmts.mpr (hclean htidy)) (.bind (.shareTarget placement') fun _ =>
        .map (h.stmts known' _ (by omega)) fun _ _ hq _ => ⟨hq.1, hq.2.1.trans ?_, .of_closed hq.2.2 rfl⟩)
      -- Neither the statement nor its code is an import.
      rw [Stmt.patternSpecifiers_of_callSite? hsite, MatchExpr.patternSpecifiers_place]

/-- A statement in a place that holds only one. -/
theorem single (hs : Depth.stmt known s ≤ n) :
    Runs ctx.names known (·.Clean [.stmt s]) (do return (← Pass.stmt ctx n s).toStmt s.span) fun w s' =>
      Settled.stmt ctx.names w.fails s' ∧ w.Keeps s (.same s') :=
  .map (h.stmt known s hs) fun _ _ hq => ⟨Settled.stmt_toStmt hq.1, hq.2.2.toStmt⟩

/-- The declarators of a statement, whose initial values have been offered or not. -/
theorem declarators {offered : Bool} {ds : List Declarator} (hds : Depth.declarators known ds ≤ n) :
    Runs ctx.names known (·.Clean (ds.map .declarator)) (ds.mapM fun d => do
      let target ← Pass.binding ctx n d.target
      return { d with target, init := ← d.init.mapM (Pass.expr ctx n offered) })
      fun w ds' => (offered = true → w.fails = true) → List.Forall₂ (fun d d' =>
        Option.Rel (ctx.names.Alike offered) d.init d'.init ∧ (Settled.binding ctx.names w.fails d'.target ∧
          Settled.expr? ctx.names w.fails offered d'.init) ∧ w.Clean [.declarator d']) ds ds' := by
  refine (Runs.mapM (Q := fun d w d' => (offered = true → w.fails = true) →
    Option.Rel (ctx.names.Alike offered) d.init d'.init ∧ (Settled.binding ctx.names w.fails d'.target ∧
      Settled.expr? ctx.names w.fails offered d'.init) ∧ w.Clean [.declarator d']) fun d hd => ?_).mono
    fun w ds' hq hfails => hq.imp fun _ _ hd => hd hfails
  obtain ⟨span, target, init⟩ := d
  have hdepth := Depth.declarators_le_iff.mp hds _ hd
  dsimp only at hdepth
  refine .node (.bind (h.binding known target (by omega)) fun _ => .map (.mapM? (Q := fun e w e' =>
    (offered = true → w.fails = true) → ctx.names.Alike offered e e' ∧ Settled.expr ctx.names w.fails offered e' ∧
      w.Clean [.expr e']) fun e he => ?_) fun w init' hi ht hn hfails => ?_)
  · have he : init = some e := he
    rw [he, Depth.expr?] at hdepth
    exact h.expr known offered e (by omega)
  · cases hi with
    | none => exact ⟨.none, ⟨ht.1, trivial⟩, hn.rebuilt rfl rfl ht.2⟩
    | some he =>
      obtain ⟨halike, hsettled, hclean⟩ := he hfails
      exact ⟨.some halike, ⟨ht.1, hsettled⟩, hn.rebuilt rfl rfl (ht.2.cons hclean)⟩

theorem catchClause? {handler : Option CatchClause} (hhandler : Depth.catchClause? known handler ≤ n) :
    Runs ctx.names known (·.Clean (handler.toList.flatMap Part.ofCatch)) (handler.mapM fun c => do
      let param ← c.param.mapM (Pass.binding ctx n)
      return { param, body := ← Pass.stmts ctx n c.body }) fun w handler' =>
        Settled.catchClause? ctx.names w.fails handler' ∧ w.Clean (handler'.toList.flatMap Part.ofCatch) := by
  refine (Runs.parts? (g := (·.toList.flatMap Part.ofCatch)) (Q := fun fails c =>
    (∀ b ∈ c.param, Settled.binding ctx.names fails b) ∧ Settled.stmts ctx.names fails c.body)
    (fun _ => List.append_nil _) ?_).mono fun _ _ => And.imp_left Settled.catchClause?_iff.mpr
  rintro c rfl
  obtain ⟨hparam, hbody⟩ := Depth.catchClause?_le_iff.mp hhandler
  refine .bind (.parts? (g := (·.toList.map Part.binding)) (Q := Settled.binding ctx.names) (fun _ => rfl)
    fun b hb => h.binding known b (hparam b hb)) fun _ => .map (h.block hbody) fun _ _ hb hp => ?_
  exact ⟨⟨hp.1, hb.1⟩, hp.2.append hb.2⟩

theorem stmtParts_succ (known : Span → Bool) (s : Stmt) (hs : Depth.stmt known s ≤ n + 1 + 1)
    (hcompiles : ∀ call, s.offer? = some call → ctx.names.compiles true call = false) :
    Runs ctx.names known (·.Clean [.stmt s]) (Pass.stmtParts ctx (n + 1) (Settled.hasOffered ctx.names s) s) fun w s' =>
      (Settled.hasOffered ctx.names s = true → w.fails = true) →
        Settled.stmt ctx.names w.fails s' ∧ Program.patternSpecifiers [s'] = Program.patternSpecifiers [s] ∧
          w.Keeps s (.same s') := by
  rw [Pass.stmtParts.eq_def]
  cases s with
  | expr span e =>
    cases e with
    | assign assignSpan op target value =>
      rw [Depth.stmt_assign] at hs
      refine .node (.node (.bind (.walkTarget (HasSpan.expr ctx n false target) fun hwalk => ?_) fun target' =>
        .map (h.expr known _ value (by omega)) fun w value' hvalue htarget hassign hn hfails => ?_))
      · rw [Depth.target_of_walked hwalk] at hs
        exact (h.offer (by omega)).mono fun _ _ => And.right
      · obtain ⟨halike, hvalue, hclean⟩ := hvalue hfails
        obtain ⟨hsite, hoffered⟩ := Settled.site_of_alike
          (.expr span (.assign assignSpan op target' value')) (Settled.rel_offer?_assign halike) hcompiles hfails
        rw [Settled.stmt, hoffered]
        exact ⟨⟨hsite, htarget.1, hvalue⟩, rfl,
          .of_closed (hn.rebuilt rfl rfl (hassign.rebuilt rfl rfl (htarget.2.cons hclean))) rfl⟩
    | _ =>
      rw [Depth.stmt] at hs
      · exact .node (.map (h.offer (by omega)) fun _ _ hq hn _ =>
          ⟨Settled.stmt_of_not_isAssign (congrArg Face.isAssign hq.1.face) hq.2.1, rfl, .of_closed (hn.rebuilt rfl rfl hq.2.2) rfl⟩)
      · rintro _ _ _ _ ⟨⟩
  | throwing span e =>
    rw [Depth.stmt] at hs
    exact .node (.map (h.offer (by omega)) fun _ _ hq hn _ => ⟨hq.2.1, rfl, .of_closed (hn.rebuilt rfl rfl hq.2.2) rfl⟩)
  | ret span value =>
    rw [Depth.stmt] at hs
    exact .node (.map (h.expr? (by omega)) fun _ _ hq hn _ => ⟨hq.1, rfl, .of_closed (hn.rebuilt rfl rfl hq.2) rfl⟩)
  | varDecl span kind ds =>
    rw [Depth.stmt] at hs
    refine .node (.map (h.declarators (by omega)) fun w ds' hq hn hfails => ?_)
    have hds := hq hfails
    obtain ⟨hsite, hoffered⟩ := Settled.site_of_alike (.varDecl span kind ds')
      (Settled.rel_offer?_varDecl (hds.imp fun _ _ h => h.1)) hcompiles hfails
    obtain ⟨hsettled, hclean⟩ := Settled.declarators_of_forall₂ (hds.imp fun _ _ h => h.2)
    rw [Settled.stmt, hoffered]
    exact ⟨⟨hsite, hsettled⟩, rfl, .of_closed (hn.rebuilt rfl rfl hclean) rfl⟩
  | funcDecl span fn =>
    rw [Depth.stmt] at hs
    exact .node (.map (h.func known fn (by omega)) fun _ _ hq hn _ => ⟨hq.1, rfl, .of_closed (hn.rebuilt rfl rfl hq.2) rfl⟩)
  | ifElse span cond thenBranch elseBranch =>
    rw [Depth.stmt] at hs
    refine .node (.bind (h.offer (by omega)) fun _ => .bind (h.single (by omega)) fun _ =>
      .map (.mapM? fun s hs' => h.single ?_) fun _ _ helse hthen hcond hn _ =>
        ⟨⟨hcond.2.1, hthen.1, Settled.stmt?_of_rel helse⟩, rfl,
          .ifElse hn hcond.2.2 hthen.2 helse⟩)
    rw [hs', Depth.stmt?] at hs
    omega
  | block span body =>
    rw [Depth.stmt] at hs
    exact .node (.map (h.block (by omega)) fun _ _ hq hn _ => ⟨hq.1, rfl, .of_closed (hn.rebuilt rfl rfl hq.2) rfl⟩)
  | labeled span label body =>
    rw [Depth.stmt] at hs
    exact .node (.map (h.single (by omega)) fun _ _ hq hn _ =>
      ⟨hq.1, rfl, hn.rebuilt rfl rfl hq.2.clean, hq.2.closed⟩)
  | tryCatch span body handler finalizer =>
    rw [Depth.stmt] at hs
    have hfinalizer : Runs ctx.names known (·.Clean ((finalizer.getD []).map .stmt)) (finalizer.mapM (Pass.stmts ctx n))
        fun w finalizer' => (∀ body ∈ finalizer', Settled.stmts ctx.names w.fails body) ∧
          w.Clean ((finalizer'.getD []).map .stmt) := by
      refine .parts? (g := fun ss => (ss.getD []).map Part.stmt) (fun _ => rfl) fun body hbody => h.block ?_
      rw [hbody, Depth.stmts?] at hs
      show Depth.stmts known body ≤ n
      omega
    exact .node (.pre (fun _ hall => hall.left.left.append (hall.left.right.append hall.right))
      (.bind (h.block (by omega)) fun _ => .bind (h.catchClause? (by omega)) fun _ => .map hfinalizer
        fun _ _ hf hc hb hn _ => ⟨⟨hb.1, hc.1, Settled.stmts?_iff.mpr hf.1⟩, rfl,
          .of_closed (hn.rebuilt rfl rfl ((hb.2.append hc.2).append hf.2)) rfl⟩))
  | whileLoop span cond body =>
    rw [Depth.stmt] at hs
    exact .node (.bind (h.offer (by omega)) fun _ => .map (h.single (by omega)) fun _ _ hbody hcond hn _ =>
      ⟨⟨hcond.2.1, hbody.1⟩, rfl, hn.rebuilt rfl rfl (hcond.2.2.cons hbody.2.clean), hbody.2.closed⟩)
  | breakTo | continueTo | importDecl | empty => exact .pure fun _ hn _ => ⟨trivial, rfl, hn, fun hopen => hopen⟩

theorem succ : Settles ctx (n + 1) where
  expr := h.expr_succ
  parts := h.parts_succ
  prop known p hp := by
    cases p with
    | init span key value shorthand =>
      rw [Depth.prop] at hp
      rw [Pass.prop]
      exact .node (.bind (h.propKey known key (by omega)) fun _ => .map (h.offer (by omega)) fun _ _ hv hk hn =>
        ⟨MatchNames.propFace_init hk.1 hk.2.1 hv.1.face, ⟨hk.2.2.1, hv.2.1⟩,
          hn.rebuilt rfl rfl (hk.2.2.2.append hv.2.2)⟩)
    | spread span value =>
      rw [Depth.prop] at hp
      rw [Pass.prop]
      exact .node (.map (h.offer (by omega)) fun _ _ hv hn =>
        ⟨MatchNames.propFace_spread hv.1.face, hv.2.1, hn.rebuilt rfl rfl hv.2.2⟩)
  propKey known key hkey := by
    cases key with
    | computed e =>
      rw [Depth.propKey] at hkey
      rw [Pass.propKey]
      exact .map (h.offer (by omega)) fun _ _ he => ⟨rfl, MatchNames.face_awaits he.1.face, he.2⟩
    | _ => exact .pure fun _ hkey => ⟨rfl, rfl, trivial, hkey⟩
  func known fn hfn := by
    obtain ⟨span, kind, name, params, body, isAsync, isGenerator⟩ := fn
    rw [Depth.func] at hfn
    rw [Pass.func]
    have hparams : Depth.params known params ≤ n := by omega
    have hbody : Depth.funcBody known body ≤ n := by omega
    refine .node (.bind (h.params hparams) fun params' => ?_)
    cases body with
    | expr e =>
      rw [Depth.funcBody] at hbody
      exact .map (h.offer hbody) fun _ _ he hp hn => ⟨⟨hp.1, he.2.1⟩, hn.rebuilt rfl rfl (hp.2.append he.2.2)⟩
    | block body =>
      rw [Depth.funcBody] at hbody
      exact .map (h.block hbody) fun _ _ hs hp hn => ⟨⟨hp.1, hs.1⟩, hn.rebuilt rfl rfl (hp.2.append hs.2)⟩
  binding known b hb := by
    rw [Pass.binding.eq_def]
    cases b with
    | ident => exact .pure fun _ hb => ⟨trivial, hb⟩
    | array span elems =>
      rw [Depth.binding] at hb
      have helems := Depth.elems_le_iff.mp (show Depth.elems known elems ≤ n by omega)
      exact .node (.map (.parts (g := (·.flatMap Part.ofElem)) (Q := Settled.elem ctx.names) (fun _ _ => rfl)
        fun e he => h.bindingElem known e (helems e he)) fun _ _ hq hn =>
          ⟨Settled.elems_iff.mpr hq.1, hn.rebuilt rfl rfl hq.2⟩)
    | object span props =>
      rw [Depth.binding] at hb
      have hprops := Depth.bindingProps_le_iff.mp (show Depth.bindingProps known props ≤ n by omega)
      exact .node (.map (.parts (g := (·.flatMap Part.ofBindingProp)) (Q := Settled.bindingProp ctx.names)
        (fun _ _ => rfl) fun p hp => h.bindingProp known p (hprops p hp)) fun _ _ hq hn =>
          ⟨Settled.bindingProps_iff.mpr hq.1, hn.rebuilt rfl rfl hq.2⟩)
  bindingElem known e he := by
    rw [Pass.bindingElem.eq_def]
    cases e with
    | hole => exact .pure fun _ he => ⟨trivial, he⟩
    | item target default =>
      rw [Depth.elem] at he
      exact .bind (h.binding known target (by omega)) fun _ => .map (h.expr? (by omega)) fun _ _ hd ht =>
        ⟨⟨ht.1, hd.1⟩, ht.2.cons hd.2⟩
    | rest target =>
      rw [Depth.elem] at he
      exact .map (h.binding known target (by omega)) fun _ _ ht => ht
  bindingProp known p hp := by
    rw [Pass.bindingProp.eq_def]
    cases p with
    | item key value default shorthand =>
      rw [Depth.bindingProp] at hp
      exact .bind (h.propKey known key (by omega)) fun _ => .bind (h.binding known value (by omega)) fun _ =>
        .map (h.expr? (by omega)) fun _ _ hd hv hk => ⟨⟨hk.2.2.1, hv.1, hd.1⟩, hk.2.2.2.append (hv.2.cons hd.2)⟩
    | rest => exact .pure fun _ hp => ⟨trivial, hp⟩
  stmts known ss hss := by
    rw [Pass.stmts]
    refine .map (.mapM fun s hs => h.stmt known s ?_) fun _ _ => Settled.stmts_of_forall₂
    have hdepth := (Depth.stmts_le_iff.mp hss).2 s hs
    omega
  stmt := h.stmt_succ
  stmtParts := h.stmtParts_succ

end Step

/-- Nothing is so shallow that a walk to depth zero is asked of it. -/
theorem zero (ctx : PassContext) : Settles ctx 0 where
  expr known _ e he := absurd (Depth.four_le_expr known e) (by omega)
  parts known _ e he := absurd (Depth.four_le_expr known e) (by omega)
  prop known p hp := absurd hp (by cases p <;> rw [Depth.prop] <;> omega)
  propKey known key hkey := absurd hkey (by cases key <;> simp [Depth.propKey])
  func known fn hfn := absurd hfn (by obtain ⟨⟩ := fn; rw [Depth.func]; omega)
  binding known b hb := absurd hb (by cases b <;> simp [Depth.binding])
  bindingElem known e he := absurd he (by cases e <;> simp [Depth.elem])
  bindingProp known p hp := absurd hp (by cases p <;> simp [Depth.bindingProp])
  stmts known ss hss := absurd (Depth.four_le_stmts known ss) (by omega)
  stmt known s hs := absurd (Depth.four_le_stmt known s) (by omega)
  stmtParts known s hs := absurd (Depth.four_le_stmt known s) (by omega)

theorem all (ctx : PassContext) (n : Nat) : Settles ctx n := by
  induction n with
  | zero => exact .zero ctx
  | succ n ih => exact ih.succ

end Settles

/-- The walk of a program gives one: the depth is always enough. The names that were made up on the way are distinct,
    and the program is settled and clean and imports what it did. -/
theorem walk_settles (ctx : PassContext) (p : Program) (queue : DiagnosticQueue) :
    ∃ ss s, walk ctx p queue = some (ss, s) ∧ Numbered s ∧ ∀ w : Outlook, Allows w { queue } s → w.Clean (p.map .stmt) →
      Settled.stmts ctx.names w.fails ss ∧ ss.patternSpecifiers = p.patternSpecifiers ∧ w.Clean (ss.map .stmt) := by
  obtain ⟨ss, s, hrun, hlater, hq⟩ := (Settles.all ctx (depthFor p)).stmts (fun _ => false) p (Nat.le_refl _) { queue }
    nofun nofun
  exact ⟨ss, s, hrun, hlater.numbered ⟨.nil, nofun⟩, fun w hallows hclean => (hq w hallows hclean nofun).1⟩

theorem program_settles (ctx : PassContext) (p : Program) (queue : DiagnosticQueue) :
    ∃ t, program ctx p queue = some t ∧ t.program.patternSpecifiers = p.patternSpecifiers ∧
      Settled.stmts ctx.names true t.program ∧
      (t.queue.length = queue.length → Settled.stmts ctx.names false t.program) := by
  obtain ⟨ss, s, hwalk, _, hq⟩ := walk_settles ctx p queue
  let w (fails : Bool) : Outlook := ⟨fails, False, False, fun _ => True⟩
  obtain ⟨hsettled, hspecifiers, _⟩ := hq (w true) ⟨.inl rfl, fun _ _ => trivial⟩ nofun
  refine ⟨⟨ss, s.replaced, s.queue⟩, by rw [program, hwalk]; rfl, hspecifiers, hsettled, fun hqueue => ?_⟩
  exact (hq (w false) ⟨.inr hqueue, fun _ _ => trivial⟩ nofun).1

/-- The walk of a settled program changes nothing. -/
theorem program_of_settled {ctx : PassContext} {p : Program} (h : Settled.stmts ctx.names true p)
    (queue : DiagnosticQueue) {t : Transformed} (ht : program ctx p queue = some t) :
    t.program = p ∧ t.replaced = 0 := by
  obtain ⟨⟨ss, s⟩, hrun, rfl⟩ := Option.map_eq_some_iff.mp ht
  have hspends := (Costs.all ctx true (depthFor p)).stmts (fun _ => 0) { queue } p
  have hreplaced := hspends.settled h _ hrun rfl
  exact ⟨(hspends.keeps _ hrun rfl hreplaced).1, hreplaced⟩

end Pass

/-! ## Programs -/

namespace Program

theorem resolve_of_patternSpecifiers (config : PassConfig) {p p' : Program}
    (h : p'.patternSpecifiers = p.patternSpecifiers) : config.resolve p' = config.resolve p := by
  unfold PassConfig.resolve discover importedAs?
  rw [h]

/-- Where imports are kept, a program is what the walk makes of it. -/
theorem transform_of_walk {config : PassConfig} (hconfig : config.stripImport = false) {p : Program}
    {names : MatchNames} (hnames : config.resolve p = some names) {queue : DiagnosticQueue} {t : Transformed}
    (ht : Pass.program ⟨names, config.generate⟩ p queue = some t) : p.transform config queue = t := by
  rw [transform, hnames]
  dsimp only
  rw [hconfig, ht]
  rfl

/-- A transformed program is left as it is by a second pass. If the first one had no warning, no
    expression anywhere in it is a complete chain. -/
theorem transform_transform (p : Program) (config : PassConfig) (hconfig : config.stripImport = false)
    (queue : DiagnosticQueue) :
    (∀ queue', ((p.transform config queue).program.transform config queue').replaced = 0 ∧
      ((p.transform config queue).program.transform config queue').program = (p.transform config queue).program) ∧
    ((p.transform config queue).queue.length = queue.length → ∀ names, config.resolve p = some names →
      ∀ v ∈ (p.transform config queue).program.visits, v.IsNoChain names) := by
  cases hnames : config.resolve p with
  | none =>
    have hsame : ∀ queue, p.transform config queue = ⟨p, 0, queue⟩ := fun queue => by rw [transform, hnames]
    rw [hsame]
    exact ⟨fun queue' => by rw [hsame]; exact ⟨rfl, rfl⟩, fun _ _ h => nomatch h⟩
  | some names =>
    obtain ⟨t, ht, hspecifiers, hsettled, hclean⟩ := Pass.program_settles ⟨names, config.generate⟩ p queue
    rw [transform_of_walk hconfig hnames ht]
    refine ⟨fun queue' => ?_, fun hqueue names' hnames' => ?_⟩
    · obtain ⟨t', ht', _⟩ := Pass.program_settles ⟨names, config.generate⟩ t.program queue'
      have hnames' := (resolve_of_patternSpecifiers config hspecifiers).trans hnames
      rw [transform_of_walk hconfig hnames' ht']
      exact (Pass.program_of_settled hsettled queue' ht').symm
    · cases hnames'
      exact Settled.stmts_visits t.program (hclean hqueue)

/-- A declaration whose value is a chain with another one in its fallback:
    `const r = match(x).with(1, one).otherwise(() => match(y).with('a', a).exhaustive())`. -/
def nestedChains : Program :=
  let s : Span := default
  let call (object : Expr) (name : String) (args : List Expr) : Expr :=
    .call s (.member s object name false) args false
  let root (subject : String) : Expr := .call s (.ident s "match") [.ident s subject] false
  let inner := call (call (root "y") "with" [.str s "a", .ident s "a"]) "exhaustive" []
  let fallback := .func s ⟨s, .arrow, none, [], .expr inner, false, false⟩
  let outer := call (call (root "x") "with" [.num s (.ofNat 1), .ident s "one"]) "otherwise" [fallback]
  [.varDecl s .constVar [⟨s, .ident s "r", some outer⟩]]

theorem transform_nestedChains :
    let config : PassConfig := { discoverImports := false }
    let t := nestedChains.transform config {}
    t.replaced = 2 ∧ (t.program.transform config {}).replaced = 0 ∧
      (t.program.transform config {}).program = t.program ∧ ∀ v ∈ t.program.visits, v.IsNoChain {} := by
  obtain ⟨hagain, hclean⟩ := transform_transform nestedChains { discoverImports := false } rfl {}
  exact ⟨by decide +kernel, (hagain {}).1, (hagain {}).2, hclean (by decide +kernel) {} rfl⟩

end Program

end MatchChain
