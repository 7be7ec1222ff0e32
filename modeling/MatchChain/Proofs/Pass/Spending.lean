import MatchChain.Proofs.Pass.Cost

/-!
# Walks and what they spend

By induction on the depth, for all parts of a walk at once: a walk comes upon no more chains than what it walks
weighs, gives it back if it replaces nothing, replaces nothing in a settled tree, and gives at every greater depth
what it gives at one.
-/

set_option autoImplicit false

namespace MatchChain

variable {targets : List (Span × Option Expr)} {placement placement' : Placement}

namespace Weight

variable {matcher : String} {credit : Credit}

/-- A statement that offers a call weighs what the call and what receives its value do. -/
theorem stmt_of_callSite? {s : Stmt} {call : Expr} {placement : Placement} (h : s.callSite? = some (call, placement))
    (offered : Bool) : stmt matcher credit offered s
      = placement.excess matcher credit + (placement.weight matcher credit + expr matcher credit offered call) := by
  cases Stmt.offers_of_callSite? h with
  | declarator span declSpan kind target =>
    rw [stmt, declarators, declarators]
    cases target <;> exact (Nat.zero_add _).symm
  | assignment =>
    rw [stmt, Placement.excess, Placement.weight, Nat.zero_add]
    rintro _ _ ⟨⟩

end Weight

namespace Placement

variable {matcher : String} {placement : Placement}

theorem weight_anti {credit credit' : Credit} (h : credit ≤ credit') :
    placement.weight matcher credit' ≤ placement.weight matcher credit := by
  cases placement with
  | destructuring kind target => exact Weight.binding_anti h target
  | _ => exact Nat.le_refl 0

end Placement

namespace Pass

theorem Current.isStatement
    (h : Current targets placement placement') : placement'.isStatement = placement.isStatement := by
  cases h <;> rfl

theorem Current.weight
    (h : Current targets placement placement') (matcher : String) (credit : Credit) :
    placement'.weight matcher credit = placement.weight matcher credit := by
  cases h <;> rfl

/-- With its target covered, the code for a statement weighs no more than the chain and the binding that
    receives its value. -/
theorem Current.weight_code
    (h : Current targets placement placement') (hstatement : placement'.isStatement = true) {names : MatchNames}
    {call : Expr} {m : MatchExpr} (hread : names.read call = .ok (some m)) {options : GenerateOptions}
    {ordinal : Nat} {code : List Stmt} (hcode : m.generate options placement' ordinal = .ok (.stmts code))
    {credit credit' : Credit} (hcredit : credit ≤ credit')
    (hcovered : ∀ target, placement' = .assignment target →
      Weight.expr names.matcher (credit'.erase target.span) false target ≤ credit' target.span) :
    Weight.stmts names.matcher credit' code
      ≤ placement.weight names.matcher credit + Weight.expr names.matcher credit true call :=
  calc
    _ ≤ placement'.weight names.matcher credit' + m.weight names.matcher credit' :=
      MatchExpr.weight_generate_statement hstatement hcode hcovered
    _ ≤ placement.weight names.matcher credit' + Weight.expr names.matcher credit' true call := by
      rw [h.weight]
      exact Nat.add_le_add_left (MatchNames.weight_of_read hread) _
    _ ≤ _ := Nat.add_le_add (Placement.weight_anti hcredit) (Weight.expr_anti hcredit call)

/-! ## Spans -/

/-- A step whose result has a span. -/
def HasSpan (p : Pass Expr) (span : Span) : Prop := ∀ s r, p s = some r → r.1.span = span

namespace HasSpan

variable {α : Type}

theorem pure {e : Expr} {span : Span} (h : e.span = span) : HasSpan (Pure.pure e) span := by
  rintro s _ ⟨⟩
  exact h

theorem bind {p : Pass α} {f : α → Pass Expr} {span : Span} (h : ∀ a, HasSpan (f a) span) :
    HasSpan (p >>= f) span := by
  intro s r hr
  obtain ⟨a, s', _, hf⟩ := exists_of_bind hr
  exact h a s' r hf

theorem parts (ctx : PassContext) (n : Nat) (offered : Bool) (e : Expr) : HasSpan (Pass.parts ctx n offered e) e.span := by
  cases n with
  | zero => exact nofun
  | succ n =>
    rw [Pass.parts.eq_def]
    cases e with
    | ident | str | num | bigint | bool | null | thisRef => exact .pure rfl
    | template | array | object | func | unary | member | spread => exact .bind fun _ => .pure rfl
    | binary | assign | index | construct => exact .bind fun _ => .bind fun _ => .pure rfl
    | conditional => exact .bind fun _ => .bind fun _ => .bind fun _ => .pure rfl
    | call span callee args optional =>
      dsimp only
      split
      · exact .bind fun _ => .bind fun _ => .pure rfl
      · exact .bind fun _ => .bind fun _ => .pure rfl

theorem expr (ctx : PassContext) (n : Nat) (offered : Bool) (e : Expr) : HasSpan (Pass.expr ctx n offered e) e.span := by
  cases n with
  | zero => exact nofun
  | succ n =>
    rw [Pass.expr]
    split
    · exact parts ctx n offered e
    · intro s r hr
      obtain ⟨_, _, hrun, hr⟩ := exists_of_bind hr
      obtain ⟨attempt, s', hrun', hattempt⟩ := compile_attempted ctx e .value s
      cases hrun.symm.trans hrun'
      cases hattempt with
      | notAChain => exact parts ctx n false e _ r hr
      | failed => exact parts ctx n true e _ r hr
      | generated m code _ _ hread hcode =>
        obtain ⟨_, _, _, _, _, _, _, rfl⟩ := MatchExpr.generate_value_shape hcode
        rw [parts ctx n false _ _ r hr]
        exact congrArg Face.span (MatchNames.face_generate hread hcode)

end HasSpan

/-! ## Walks -/

/-- A walk that spends to a depth, and does the same one deeper. -/
abbrev Spending {α : Type} (credit : Credit) (s : PassState) (n : Nat) (walk : Nat → Pass α) (a : α) (w : Nat)
    (S : Prop) : Prop :=
  Spends credit s (walk n) (walk (n + 1)) a w S

/-- A walk to a depth costs no more than what is walked weighs, gives it back if it replaces nothing, and replaces
    nothing if it is settled. -/
structure Costs (ctx : PassContext) (fails : Bool) (n : Nat) : Prop where
  expr : ∀ credit s offered e, Spending credit s n (Pass.expr ctx · offered e) e
    (Weight.expr ctx.names.matcher credit offered e) (Settled.expr ctx.names fails offered e)
  parts : ∀ credit s offered e, Spending credit s n (Pass.parts ctx · offered e) e
    (Weight.expr ctx.names.matcher credit offered e) (Settled.Parts ctx.names fails offered e)
  prop : ∀ credit s p, Spending credit s n (Pass.prop ctx · p) p
    (Weight.prop ctx.names.matcher credit p) (Settled.prop ctx.names fails p)
  propKey : ∀ credit s key, Spending credit s n (Pass.propKey ctx · key) key
    (Weight.propKey ctx.names.matcher credit key) (Settled.propKey ctx.names fails key)
  func : ∀ credit s fn, Spending credit s n (Pass.func ctx · fn) fn
    (Weight.func ctx.names.matcher credit fn) (Settled.func ctx.names fails fn)
  binding : ∀ credit s b, Spending credit s n (Pass.binding ctx · b) b
    (Weight.binding ctx.names.matcher credit b) (Settled.binding ctx.names fails b)
  bindingElem : ∀ credit s e, Spending credit s n (Pass.bindingElem ctx · e) e
    (Weight.elem ctx.names.matcher credit e) (Settled.elem ctx.names fails e)
  bindingProp : ∀ credit s p, Spending credit s n (Pass.bindingProp ctx · p) p
    (Weight.bindingProp ctx.names.matcher credit p) (Settled.bindingProp ctx.names fails p)
  stmts : ∀ credit s ss, Spending credit s n (Pass.stmts ctx · ss) ss
    (Weight.stmts ctx.names.matcher credit ss) (Settled.stmts ctx.names fails ss)
  stmt : ∀ credit s t, Spending credit s n (Pass.stmt ctx · t) (.same t)
    (Weight.stmt ctx.names.matcher credit false t) (Settled.stmt ctx.names fails t)
  stmtParts : ∀ credit s offered t, Spending credit s n (Pass.stmtParts ctx · offered t) t
    (Weight.stmt ctx.names.matcher credit offered t) (Settled.StmtParts ctx.names fails offered t)

namespace Costs

variable {ctx : PassContext} {fails : Bool} {n : Nat}

section Step

variable {credit : Credit} {s : PassState} (h : Costs ctx fails n)

include h

theorem offer (e : Expr) : Spending credit s n (Pass.expr ctx · false e) e
    (Weight.expr ctx.names.matcher credit false e) (Settled.expr ctx.names fails false e) :=
  h.expr credit s false e

theorem exprs (es : List Expr) : Spending credit s n (es.mapM <| Pass.expr ctx · false) es
    (Weight.exprs ctx.names.matcher credit es) (Settled.exprs ctx.names fails es) :=
  .mapM_id (fun e s => h.expr credit s false e) rfl (fun _ _ => rfl) (fun _ _ h => h) es

theorem expr? (offered : Bool) (e : Option Expr) : Spending credit s n (e.mapM <| Pass.expr ctx · offered) e
    (Weight.expr? ctx.names.matcher credit offered e) (Settled.expr? ctx.names fails offered e) :=
  .mapM? (fun e s => h.expr credit s offered e) rfl (fun _ => rfl) (fun _ h => h) e

theorem expr_succ (credit : Credit) (s : PassState) (offered : Bool) (e : Expr) :
    Spending credit s (n + 1) (Pass.expr ctx · offered e) e (Weight.expr ctx.names.matcher credit offered e)
      (Settled.expr ctx.names fails offered e) := by
  have hparts : Settled.expr ctx.names fails offered e → _ := Settled.parts_of_expr
  dsimp only [Spending]
  rw [Pass.expr, Pass.expr]
  split
  case isTrue hplain =>
    refine (h.parts credit s offered e).imp fun he => ?_
    have hrecognizes : (offered || ctx.names.recognizes e) = offered := by
      cases offered with
      | true => rfl
      | false => exact MatchNames.recognizes_of_not_isCall (by simpa using hplain)
    exact hrecognizes ▸ hparts he
  case isFalse hcall =>
    obtain rfl : offered = false := by cases offered <;> simp_all
    refine .compile (fun he => ?_) (fun hother => ?_) (fun hchain => ?_)
      fun m code ordinal s' _ hchain hread hcode => ?_
    · cases e with
      | call => exact he.1.resolve_left Bool.false_ne_true
      | _ => exact absurd rfl hcall
    · rw [hother] at hparts
      exact (h.parts credit s false e).imp hparts
    · rw [hchain] at hparts
      exact ⟨_, (MatchNames.weight_of_recognizes hchain).le, fun s => (h.parts credit s true e).imp hparts⟩
    · obtain ⟨_, _, _, _, _, _, _, rfl⟩ := MatchExpr.generate_value_shape hcode
      refine ⟨_, ?_, (h.parts credit s' false _).toPays⟩
      rw [← MatchNames.weight_of_recognizes hchain]
      exact Nat.succ_le_succ ((MatchExpr.weight_generate_value hcode).trans (MatchNames.weight_of_read hread))

theorem parts_succ (credit : Credit) (s : PassState) (offered : Bool) (e : Expr) :
    Spending credit s (n + 1) (Pass.parts ctx · offered e) e (Weight.expr ctx.names.matcher credit offered e)
      (Settled.Parts ctx.names fails offered e) := by
  cases e with
  | ident | str | num | bigint | bool | null | thisRef => exact .pure _
  | template span texts holes => exact .map (h.exprs holes) rfl
  | array span items => exact .map (h.exprs items) rfl
  | object span ps =>
    exact .map (.mapM_id (fun p s => h.prop credit s p) rfl (fun _ _ => rfl) (fun _ _ h => h) ps) rfl
  | func span fn => exact .map (h.func credit s fn) rfl
  | unary span op operand => exact .map (h.offer operand) rfl
  | binary span op left right => exact .bind (h.offer left) (fun _ _ => .map (h.offer right) rfl) rfl
  | conditional span cond thenExpr elseExpr =>
    rw [Weight.expr, Nat.add_assoc]
    exact .bind (h.offer cond) (fun _ _ => .bind (h.offer thenExpr) (fun _ _ => .map (h.offer elseExpr) rfl) rfl) rfl
  | assign span op target value => exact .bind (h.offer target) (fun _ _ => .map (h.offer value) rfl) rfl
  | member span object property optional =>
    exact .mono (.map (h.expr credit s offered object) rfl) (Nat.le_add_left _ _)
  | index span object key optional => exact .bind (h.offer object) (fun _ _ => .map (h.offer key) rfl) rfl
  | call span callee args optional =>
    cases offered with
    | true =>
      exact .bind ((h.parts credit s true callee).imp Settled.parts_of_expr) (fun _ _ => .map (h.exprs args) rfl) rfl
    | false => exact .bind (h.offer callee) (fun _ _ => .map (h.exprs args) rfl) rfl
  | construct span callee args => exact .bind (h.offer callee) (fun _ _ => .map (h.exprs args) rfl) rfl
  | spread span operand => exact .map (h.offer operand) rfl

theorem func_succ (credit : Credit) (s : PassState) (fn : Func) :
    Spending credit s (n + 1) (Pass.func ctx · fn) fn (Weight.func ctx.names.matcher credit fn)
      (Settled.func ctx.names fails fn) := by
  obtain ⟨span, name, isArrow, params, body, isAsync, isGenerator⟩ := fn
  have hparams : Spending credit s n (fun n => params.mapM fun p => do
      let target ← Pass.binding ctx n p.target
      return { p with target, default := ← p.default.mapM (Pass.expr ctx n false) }) params
      (Weight.params ctx.names.matcher credit params) (Settled.params ctx.names fails params) := by
    refine .mapM_id (fun p s => .bind (h.binding credit s p.target) (fun _ _ => .map (h.expr? false p.default) rfl)
      (by cases p; rfl)) rfl ?_ ?_ params
    · rintro ⟨⟩ _
      rfl
    · rintro ⟨⟩ _ h
      exact h
  cases body with
  | expr e =>
    exact .bind hparams (fun _ _ => .imp (.bind (h.offer e) (fun _ _ => .map (.pure _) rfl) rfl)
      fun h => ⟨h, trivial⟩) rfl
  | block body =>
    exact .bind hparams (fun _ s => .imp (.bind (h.stmts credit s body) (fun _ _ => .map (.pure _) rfl) rfl)
      fun h => ⟨h, trivial⟩) rfl

theorem stmt_succ (credit : Credit) (s : PassState) (t : Stmt) :
    Spending credit s (n + 1) (Pass.stmt ctx · t) (.same t) (Weight.stmt ctx.names.matcher credit false t)
      (Settled.stmt ctx.names fails t) := by
  have hparts : Settled.stmt ctx.names fails t → _ := Settled.stmtParts_of_stmt
  dsimp only [Spending]
  rw [Pass.stmt, Pass.stmt]
  cases hsite : t.callSite? with
  | none =>
    rw [Settled.hasOffered_of_callSite?_eq_none hsite] at hparts
    exact .map ((h.stmtParts credit s false t).imp hparts) rfl
  | some site =>
    obtain ⟨call, placement⟩ := site
    rw [Settled.hasOffered_of_callSite? hsite] at hparts
    refine .currentPlacement fun placement' hcurrent => ?_
    have hstatement := hcurrent.isStatement.trans (Stmt.isStatement_of_callSite? hsite).2
    refine .compile (fun ht => ?_) (fun hother => ?_) (fun hchain => ?_)
      fun m code ordinal s' htargets hchain hread hcode => ?_
    · rw [hstatement]
      exact Settled.compiles_of_callSite? ht hsite
    · rw [hother] at hparts
      exact .map ((h.stmtParts credit s false t).imp hparts) rfl
    · rw [hchain] at hparts
      refine ⟨_, ?_, fun s => .map ((h.stmtParts credit s true t).imp hparts) rfl⟩
      rw [Weight.stmt_of_callSite? hsite, Weight.stmt_of_callSite? hsite, ← MatchNames.weight_of_recognizes hchain]
      exact Nat.le_refl _
    · obtain ⟨ss, rfl⟩ : ∃ ss, code = .stmts ss := by
        obtain ⟨_, _, _, _, _, _, _, _, _, _, hss⟩ := MatchExpr.generate_statement_shape hstatement hcode
        exact ⟨_, hss⟩
      rw [← htargets] at hcurrent
      refine ⟨_, ?_, .shareTarget hcurrent (fun credit s => (Spends.map (h.stmts credit s ss) rfl).toPays)
        fun credit' hcredit hcovered => hcurrent.weight_code hstatement hread hcode hcredit hcovered⟩
      rw [Weight.stmt_of_callSite? hsite, ← MatchNames.weight_of_recognizes hchain]
      exact Nat.le_refl _

/-- A statement in a place that holds only one. -/
theorem single (t : Stmt) : Spending credit s n (fun n => do return (← Pass.stmt ctx n t).toStmt t.span : Nat → Pass Stmt) t
    (Weight.stmt ctx.names.matcher credit false t) (Settled.stmt ctx.names fails t) :=
  .map (h.stmt credit s t) rfl

theorem catchClause? (handler : Option CatchClause) :
    Spending credit s n (fun n => handler.mapM fun c => do
      let param ← c.param.mapM (Pass.binding ctx n)
      return { param, body := ← Pass.stmts ctx n c.body }) handler
      (Weight.catchClause? ctx.names.matcher credit handler) (Settled.catchClause? ctx.names fails handler) := by
  rcases handler with _ | ⟨_ | param, body⟩
  · exact .pure none
  · exact .map (.map (h.stmts credit s body) rfl) rfl
  · exact .map (.bind (.map (h.binding credit s param) rfl) (fun _ s => .map (h.stmts credit s body) rfl) rfl) rfl

theorem stmtParts_succ (credit : Credit) (s : PassState) (offered : Bool) (t : Stmt) :
    Spending credit s (n + 1) (Pass.stmtParts ctx · offered t) t (Weight.stmt ctx.names.matcher credit offered t)
      (Settled.StmtParts ctx.names fails offered t) := by
  cases t with
  | expr span e =>
    cases e with
    | assign assignSpan op target value =>
      exact .bind (.walkTarget (fun credit s => h.expr credit s false target) (HasSpan.expr ctx n false target))
        (fun _ s => .map (h.expr credit s offered value) rfl) rfl
    | _ => exact .map (h.offer _) rfl
  | throwing span e => exact .map (h.offer e) rfl
  | ret span value => exact .map (h.expr? false value) rfl
  | varDecl span kind ds =>
    refine .map (.mapM_id (fun d s => .bind (h.binding credit s d.target) (fun _ _ => .map (h.expr? offered d.init) rfl)
      (by cases d; rfl)) rfl ?_ ?_ ds) rfl
    · rintro ⟨⟩ _
      rfl
    · rintro ⟨⟩ _ h
      exact h
  | funcDecl span fn => exact .map (h.func credit s fn) rfl
  | ifElse span cond thenBranch elseBranch =>
    rw [Weight.stmt, Nat.add_assoc]
    exact .bind (h.offer cond) (fun _ _ => .bind (h.single thenBranch) (fun _ _ =>
      .map (.mapM? (fun t _ => h.single t) rfl (fun _ => rfl) (fun _ h => h) elseBranch) rfl) rfl) rfl
  | block span body => exact .map (h.stmts credit s body) rfl
  | labeled span label body => exact .map (h.single body) rfl
  | tryCatch span body handler finalizer =>
    rw [Weight.stmt, Nat.add_assoc]
    exact .bind (h.stmts credit s body) (fun _ _ => .bind (h.catchClause? handler) (fun _ _ =>
      .map (.mapM? (fun ss s => h.stmts credit s ss) rfl (fun _ => rfl) (fun _ h => h) finalizer) rfl) rfl) rfl
  | whileLoop span cond body => exact .bind (h.offer cond) (fun _ _ => .map (h.single body) rfl) rfl
  | breakTo | continueTo | importDecl | empty => exact .pure _

theorem succ : Costs ctx fails (n + 1) where
  expr := h.expr_succ
  parts := h.parts_succ
  prop credit s p := by
    cases p with
    | init => exact .bind (h.propKey credit s _) (fun _ _ => .map (h.offer _) rfl) rfl
    | spread => exact .map (h.offer _) rfl
  propKey credit s key := by
    cases key with
    | computed e => exact .map (h.offer e) rfl
    | _ => exact .pure _
  func := h.func_succ
  binding credit s b := by
    cases b with
    | ident => exact .pure _
    | array span es =>
      exact .map (.mapM_id (fun e s => h.bindingElem credit s e) rfl (fun _ _ => rfl) (fun _ _ h => h) es) rfl
    | object span ps =>
      exact .map (.mapM_id (fun p s => h.bindingProp credit s p) rfl (fun _ _ => rfl) (fun _ _ h => h) ps) rfl
  bindingElem credit s e := by
    cases e with
    | hole => exact .pure _
    | item target default => exact .bind (h.binding credit s target) (fun _ _ => .map (h.expr? false default) rfl) rfl
    | rest target => exact .map (h.binding credit s target) rfl
  bindingProp credit s p := by
    cases p with
    | item key value default shorthand =>
      rw [Weight.bindingProp, Nat.add_assoc]
      exact .bind (h.propKey credit s key) (fun _ s => .bind (h.binding credit s value)
        (fun _ _ => .map (h.expr? false default) rfl) rfl) rfl
    | rest => exact .pure _
  stmts credit s ss := by
    refine .map (.mapM (fun t s => h.stmt credit s t) rfl (fun _ _ => rfl) (fun _ _ h => h) ss) ?_
    rw [List.flatMap_map]
    exact List.flatMap_singleton' ss
  stmt := h.stmt_succ
  stmtParts := h.stmtParts_succ

end Step

/-- A walk to depth zero gives nothing. -/
theorem zero (ctx : PassContext) (fails : Bool) : Costs ctx fails 0 := by
  constructor <;> intros <;> exact .failure _ _

theorem all (ctx : PassContext) (fails : Bool) (n : Nat) : Costs ctx fails n := by
  induction n with
  | zero => exact zero ctx fails
  | succ n ih => exact ih.succ

end Costs

/-- A walk of statements that gives a result gives it at every greater depth. -/
theorem stmts_of_le {ctx : PassContext} {n n' : Nat} (hle : n ≤ n') {ss : List Stmt} {s : PassState}
    {r : List Stmt × PassState} (h : stmts ctx n ss s = some r) : stmts ctx n' ss s = some r := by
  induction hle with
  | refl => exact h
  | step _ ih => exact ((Costs.all ctx true _).stmts (fun _ => 0) s ss).deepens r ih

end Pass

end MatchChain
