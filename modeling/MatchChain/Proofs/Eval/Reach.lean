import MatchChain.Proofs.Eval.Chains

/-!
# What an evaluation gets to

Evaluating an expression evaluates parts of it, each in the machine that the parts before it have left, and
leaves out those that an operator skips. `Reaches` tells which, for the kinds of expressions that conditions
are made of. A part that is reached and raises an error ends the whole evaluation with it.
-/

set_option autoImplicit false

namespace MatchChain

variable {err : EvalError}

namespace Eval

open Outcome

/-- Evaluating the first expression from the first machine evaluates the second from the second. -/
inductive Reaches : Machine → Expr → Machine → Expr → Prop
  | here (m : Machine) (e : Expr) : Reaches m e m e
  | left {m m' : Machine} {e s : Expr} (span : Span) (op : BinaryOp) (right : Expr) :
    Reaches m e m' s → Reaches m (.binary span op e right) m' s
  | right {m m₁ m' : Machine} {left e s : Expr} {a : Value} {op : BinaryOp} (span : Span) :
    limit (expr · left) m = some (.ok a, m₁) → op.keepsLeft? a ≠ some true → Reaches m₁ e m' s →
      Reaches m (.binary span op left e) m' s
  | operand {m m' : Machine} {e s : Expr} {op : UnaryOp} (span : Span) :
    (op = .typeOf → ∀ inner name, e ≠ .ident inner name) → Reaches m e m' s →
      Reaches m (.unary span op e) m' s
  | object {m m' : Machine} {access e s : Expr} :
    access.accessed? = some e → Reaches m e m' s → Reaches m access m' s
  | callee {m m' : Machine} {fn s : Expr} (span : Span) (arguments : List Expr) :
    Reaches m fn m' s → Reaches m (.call span fn arguments false) m' s
  | argument {m m₁ m' : Machine} {fn e s : Expr} {f : Value × Value} (span : Span) (others : List Expr) :
    limit (callee · fn) m = some (.ok (some f), m₁) → (∀ inner spread, e ≠ .spread inner spread) →
      Reaches m₁ e m' s → Reaches m (.call span fn (e :: others) false) m' s

theorem limit_link_of_error {e : Expr} {m m' : Machine}
    (h : limit (expr · e) m = some (.error err, m')) : limit (link · e) m = some (.error err, m') := by
  rw [limit_expr_of_link] at h
  rcases hlink : limit (link · e) m with _ | ⟨_ | v, m''⟩ <;> rw [hlink] at h <;> cases h
  rfl

theorem limit_callee_of_error {e : Expr} {m m' : Machine}
    (h : limit (expr · e) m = some (.error err, m')) : limit (callee · e) m = some (.error err, m') := by
  have hlink := limit_link_of_error h
  rw [limit_link_of_callee] at hlink
  rcases hcallee : limit (callee · e) m with _ | ⟨_ | f, m''⟩ <;> rw [hcallee] at hlink <;> cases hlink
  rfl

/-- An error of what is reached is the error of the whole. -/
theorem Reaches.raises {m m' m'' : Machine} {e s : Expr} (h : Reaches m e m' s)
    (hs : limit (expr · s) m' = some (.error err, m'')) : limit (expr · e) m = some (.error err, m'') := by
  induction h with
  | here => exact hs
  | left span op right _ ih =>
    rw [limit_expr_binary, ih hs]
    rfl
  | @right _ _ _ _ _ _ a op span hleft hop _ ih =>
    rw [limit_expr_binary, hleft]
    simp only [Option.bind_some, andThen_ok, operated]
    split
    · contradiction
    · exact ih hs
    · rw [ih hs]
      rfl
  | operand span hop _ ih =>
    rw [limit_expr_unary hop, ih hs]
    rfl
  | object haccess _ ih =>
    rw [limit_expr_of_link, limit_link_access haccess, limit_link_of_error (ih hs)]
    rfl
  | callee span arguments _ ih =>
    rw [limit_expr_call, limit_callee_of_error (ih hs)]
    rfl
  | argument span others hcallee hplain _ ih =>
    rw [limit_expr_call, hcallee]
    simp only [Option.bind_some, andThen_ok, limit_args_cons hplain, ih hs, andThen_error]

end Eval

end MatchChain
