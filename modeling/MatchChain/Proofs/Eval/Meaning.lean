import MatchChain.Proofs.Eval.Limit

/-!
# What code means

The limits of the interpreter's functions, one equation per kind of node. With them a run is followed
along the tree, from one node to its parts.
-/

set_option autoImplicit false

namespace MatchChain

variable {e : Expr}

namespace Eval

open Outcome

/-! ## Plain expressions -/

theorem limit_expr_ident {m : Machine} {name : String} {v : Value} (h : m.lookup? name = some v)
    (span : Span) : limit (expr · (.ident span name)) m = some (.ok v, m) := by
  rw [limit_succ]
  simp only [Eval.expr]
  rw [limit_const, run_lookup, h]
  rfl

/-- The value of a literal. -/
def literalValue? : Expr → Option Value
  | .str _ text => some (.str text)
  | .num _ x => some (.number x)
  | .bigint _ digits => some (.bigint digits)
  | .bool _ b => some (.bool b)
  | .null _ => some .null
  | _ => none

theorem limit_expr_literal {v : Value} (h : literalValue? e = some v) (m : Machine) :
    limit (expr · e) m = some (.ok v, m) := by
  have hstep : ∀ n, expr (n + 1) e = pure v := by
    intro n
    cases e <;> cases h <;> rfl
  rw [limit_succ]
  simp only [hstep]
  rw [limit_pure]

/-- The kind of a name's value is asked for without reading the name. -/
theorem limit_expr_typeOf_ident {m : Machine} {name : String} {v : Value}
    (h : m.lookup? name = some v) (span inner : Span) :
    limit (expr · (.unary span .typeOf (.ident inner name))) m
      = some (.ok (.str v.kindName), m) := by
  rw [limit_succ]
  simp only [Eval.expr]
  rw [limit_const, run_bind_ok (run_lookup? name m), h]
  rfl

/-- An operand is evaluated, unless it is a name whose kind is asked for. -/
theorem limit_expr_unary {op : UnaryOp} (h : op = .typeOf → ∀ span name, e ≠ .ident span name)
    (span : Span) (m : Machine) :
    limit (expr · (.unary span op e)) m
      = (limit (expr · e) m).bind (andThen fun v m' => some (m'.heap.unary span op v, m')) := by
  have hstep : ∀ n, expr (n + 1) (.unary span op e)
      = expr n e >>= fun v => get >>= fun m => lift (m.heap.unary span op v) := by
    intro n
    cases op
    case typeOf => cases e <;> first | rfl | exact absurd rfl (h rfl _ _)
    all_goals rfl
  rw [limit_succ]
  simp only [hstep]
  rw [(growing_expr e).limit_bind]
  congr 2
  funext v m'
  rw [limit_const, run_bind_ok (run_get m'), run_lift]
  cases m'.heap.unary span op v <;> rfl

theorem limit_expr_typeOf (h : ∀ span name, e ≠ .ident span name) (span : Span)
    (m : Machine) :
    limit (expr · (.unary span .typeOf e)) m
      = (limit (expr · e) m).bind (andThen fun v m' => some (.ok (.str v.kindName), m')) :=
  limit_expr_unary (fun _ => h) span m

/-- What an operator makes of the value of its left operand. -/
noncomputable def operated (span : Span) (op : BinaryOp) (right : Expr) (a : Value) (m : Machine) :
    Option (Outcome Value) :=
  match op.keepsLeft? a with
  | some true => some (.ok a, m)
  | some false => limit (expr · right) m
  | none => (limit (expr · right) m).bind (andThen fun b m' => some (m'.heap.binary span op a b, m'))

theorem limit_expr_binary (span : Span) (op : BinaryOp) (left right : Expr) (m : Machine) :
    limit (expr · (.binary span op left right)) m
      = (limit (expr · left) m).bind (andThen (operated span op right)) := by
  rw [limit_succ]
  simp only [Eval.expr]
  rw [(growing_expr left).limit_bind]
  congr 2
  funext a m'
  unfold operated
  rcases op.keepsLeft? a with _ | _ | _
  · dsimp only
    rw [(growing_expr right).limit_bind]
    congr 2
    funext b m''
    rw [limit_const, run_bind_ok (run_get m''), run_lift]
    cases m''.heap.binary span op a b <;> rfl
  · rfl
  · exact congrFun (limit_pure a) m'

theorem limit_expr_and (span : Span) (left right : Expr) (m : Machine) :
    limit (expr · (.binary span .and left right)) m
      = (limit (expr · left) m).bind (andThen fun a m' =>
          if a.isTruthy then limit (expr · right) m' else some (.ok a, m')) := by
  rw [limit_expr_binary]
  congr 2
  funext a m'
  cases h : a.isTruthy <;> simp [operated, BinaryOp.keepsLeft?, h]

theorem limit_expr_operator {op : BinaryOp} (h : ∀ v, op.keepsLeft? v = none) (span : Span)
    (left right : Expr) (m : Machine) :
    limit (expr · (.binary span op left right)) m
      = (limit (expr · left) m).bind (andThen fun a m' =>
          (limit (expr · right) m').bind (andThen fun b m'' =>
            some (m''.heap.binary span op a b, m''))) := by
  rw [limit_expr_binary]
  congr 2
  funext a m'
  simp only [operated, h]

/-! ## Chains -/

/-- Whether a node is a link of a chain, which an optional link before it can end. -/
def isChained : Expr → Bool
  | .member .. | .index .. | .call .. => true
  | _ => false

/-- A chain that ended early is undefined. -/
theorem limit_expr_chain (h : isChained e = true) (m : Machine) :
    limit (expr · e) m
      = (limit (link · e) m).bind (andThen fun v m' => some (.ok (v.getD .undefined), m')) := by
  have hstep : ∀ n, expr (n + 1) e = link n e >>= fun v => pure (v.getD .undefined) := by
    intro n
    cases e <;> first | rfl | cases h
  rw [limit_succ]
  simp only [hstep]
  rw [(growing_link e).limit_bind]
  congr 2
  funext v m'
  rw [limit_pure]

/-- What is no link starts a chain. -/
theorem limit_link_start (h : isChained e = false) (m : Machine) :
    limit (link · e) m
      = (limit (expr · e) m).bind (andThen fun v m' => some (.ok (some v), m')) := by
  have hstep : ∀ n, link (n + 1) e = expr n e >>= fun v => pure (some v) := by
    intro n
    cases e <;> first | rfl | cases h
  rw [limit_succ]
  simp only [hstep]
  rw [(growing_expr e).limit_bind]
  congr 2
  funext v m'
  rw [limit_pure]

/-- What an operation gives, as a link. -/
noncomputable def linked (act : Eval Value) (m : Machine) : Option (Outcome (Option Value)) :=
  (Outcome.ofRun? (act.run.run m)).bind (andThen fun v m' => some (.ok (some v), m'))

theorem limit_linked (act : Eval Value) (m : Machine) :
    limit (fun _ => act >>= fun v => pure (some v)) m = linked act m := by
  rw [limit_const_bind]
  simp only [limit_pure]
  rfl

theorem limit_link_member (span : Span) (object : Expr) (property : String) (optional : Bool)
    (m : Machine) :
    limit (link · (.member span object property optional)) m
      = (limit (link · object) m).bind (andThen fun
          | none, m' => some (.ok none, m')
          | some target, m' =>
            if optional && target.isNullish then some (.ok none, m')
            else linked (getProperty target property span) m') := by
  rw [limit_succ]
  simp only [Eval.link]
  rw [(growing_link object).limit_bind]
  congr 2
  funext target m'
  cases target with
  | none => rw [limit_pure]
  | some target =>
    dsimp only
    split
    · rw [limit_pure]
    · exact limit_linked _ m'

theorem limit_link_index (span : Span) (object key : Expr) (optional : Bool) (m : Machine) :
    limit (link · (.index span object key optional)) m
      = (limit (link · object) m).bind (andThen fun
          | none, m' => some (.ok none, m')
          | some target, m' =>
            if optional && target.isNullish then some (.ok none, m')
            else (limit (expr · key) m').bind (andThen fun k m'' =>
              linked (getProperty target (m''.heap.text k) span) m'')) := by
  rw [limit_succ]
  simp only [Eval.link]
  rw [(growing_link object).limit_bind]
  congr 2
  funext target m'
  cases target with
  | none => rw [limit_pure]
  | some target =>
    dsimp only
    split
    · rw [limit_pure]
    · rw [(growing_expr key).limit_bind]
      congr 2
      funext k m''
      rw [limit_const_bind, run_text]
      exact limit_linked _ m''

theorem limit_link_call (span : Span) (fn : Expr) (arguments : List Expr) (optional : Bool)
    (m : Machine) :
    limit (link · (.call span fn arguments optional)) m
      = (limit (callee · fn) m).bind (andThen fun
          | none, m' => some (.ok none, m')
          | some (function, receiver), m' =>
            if optional && function.isNullish then some (.ok none, m')
            else (limit (args · arguments) m').bind (andThen fun values m'' =>
              (limit (call · function receiver values span) m'').bind (andThen fun v m₃ =>
                some (.ok (some v), m₃)))) := by
  rw [limit_succ]
  simp only [Eval.link]
  rw [(growing_callee fn).limit_bind]
  congr 2
  funext found m'
  cases found with
  | none => rw [limit_pure]
  | some found =>
    obtain ⟨function, receiver⟩ := found
    dsimp only
    split
    · rw [limit_pure]
    · rw [(growing_args arguments).limit_bind]
      congr 2
      funext values m''
      rw [(growing_call function receiver values span).limit_bind]
      congr 2
      funext v m₃
      rw [limit_pure]

/-! ## Calls -/

/-- A call as an expression; a chain that ended early is undefined. -/
theorem limit_expr_call (span : Span) (fn : Expr) (arguments : List Expr) (m : Machine) :
    limit (expr · (.call span fn arguments false)) m
      = (limit (callee · fn) m).bind (andThen fun
          | none, m' => some (.ok .undefined, m')
          | some (function, receiver), m' =>
            (limit (args · arguments) m').bind (andThen fun values m'' =>
              limit (call · function receiver values span) m'')) := by
  rw [limit_expr_chain rfl, limit_link_call]
  rcases limit (callee · fn) m with _ | ⟨_ | found, m'⟩
  · rfl
  · rfl
  · cases found with
    | none => rfl
    | some found =>
      simp only [Option.bind_some, andThen_ok, Bool.false_and, Bool.false_eq_true, if_false]
      rcases limit (args · arguments) m' with _ | ⟨_ | values, m''⟩
      · rfl
      · rfl
      · simp only [Option.bind_some, andThen_ok]
        rcases limit (call · found.1 found.2 values span) m'' with _ | ⟨_ | v, m₃⟩ <;> rfl

theorem limit_callee_member (span : Span) (object : Expr) (property : String) (m : Machine) :
    limit (callee · (.member span object property false)) m
      = (limit (link · object) m).bind (andThen fun
          | none, m' => some (.ok none, m')
          | some receiver, m' =>
            (Outcome.ofRun? ((getProperty receiver property span).run.run m')).bind
              (andThen fun v m'' => some (.ok (some (v, receiver)), m''))) := by
  rw [limit_succ]
  simp only [Eval.callee]
  rw [(growing_link object).limit_bind]
  congr 2
  funext receiver m'
  cases receiver with
  | none => rw [limit_pure]
  | some receiver =>
    simp only [Bool.false_and, Bool.false_eq_true, if_false]
    rw [limit_const_bind]
    simp only [limit_pure]

theorem limit_args_nil (m : Machine) : limit (args · []) m = some (.ok [], m) := by
  rw [limit_succ]
  simp only [Eval.args, List.mapM_nil, pure_bind, List.flatten_nil]
  rw [limit_pure]

theorem limit_args_cons (h : ∀ span inner, e ≠ .spread span inner) (es : List Expr)
    (m : Machine) :
    limit (args · (e :: es)) m
      = (limit (expr · e) m).bind (andThen fun v m' =>
          (limit (args · es) m').bind (andThen fun vs m'' => some (.ok (v :: vs), m''))) := by
  have hstep : ∀ n, args (n + 1) (e :: es)
      = expr n e >>= fun v => args (n + 1) es >>= fun vs => pure (v :: vs) := by
    intro n
    rw [Eval.args, Eval.args, List.mapM_cons]
    split
    · rename_i span inner
      exact absurd rfl (h span inner)
    · simp
  rw [limit_succ]
  simp only [hstep]
  rw [(growing_expr e).limit_bind]
  congr 2
  funext v m'
  rw [limit_succ (args · es), (growing_args es).succ.limit_bind]
  simp only [limit_pure]

/-- A call of a built-in function. -/
theorem limit_call_native {m : Machine} {cell : Nat} {fn : Native} {receiver : Value}
    (h : m.heap.cells[cell]? = some (.native fn receiver)) (this : Value) (values : List Value)
    (span : Span) :
    limit (call · (.function cell) this values span) m
      = Outcome.ofRun? ((callNative fn receiver values span).run.run m) := by
  have hstep : ∀ n, (call (n + 1) (.function cell) this values span).run.run m
      = (callNative fn receiver values span).run.run m := by
    intro n
    rw [Eval.call, run_bind_ok (run_get m)]
    simp only [h]
  rw [limit_succ, ← limit_const]
  refine Option.ext fun r => ?_
  simp only [limit_eq_some, Ends, hstep]

end Eval

end MatchChain
