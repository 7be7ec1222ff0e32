import MatchChain.Code.Generate

/-!
# One attempt to generate code

Code is generated with a supply of names as state. `generate_eq` writes the names out.
-/

set_option autoImplicit false

namespace MatchChain

@[simp] theorem FreshNames.mintIf_false (f : FreshNames) : f.mintIf false = (none, f) := rfl

@[simp] theorem FreshNames.mintIf_true (f : FreshNames) : f.mintIf true = (some f.mint.1, f.mint.2) := rfl

/-- What follows branches that do not cover every value, with the names for reporting it. -/
def Emission.rest (em : Emission) (e : MatchExpr) (shown error : String) : List Stmt :=
  match e.fallback.map (·.plan em.span em.sink.targetNames) with
  | some plan => [em.invoke none plan]
  | none => if e.exhaustive then [] else em.noMatch shown error

namespace MatchExpr

/-- A subject that is repeated in place is harmless to repeat. -/
theorem isCheap_of_needsCache {m : MatchExpr} {options : GenerateOptions} {sink : Sink}
    (h : m.needsCache options sink = false) : options.cost.isCheap m.subject = true := by
  simpa using (Bool.or_eq_false_iff.mp h).1

theorem needsCache_of_not_isCheap {m : MatchExpr} {options : GenerateOptions}
    (h : options.cost.isCheap m.subject = false) (sink : Sink) : m.needsCache options sink = true := by
  rw [needsCache, h]
  rfl

/-- From the branches on, names are taken for the report only. -/
theorem run_branches (m : MatchExpr) (em : Emission) (plans : List Invocation) (f : List Stmt → Generated)
    (names : FreshNames) :
    ((do
      let (branches, always) ← em.branches (m.branches.zip plans)
      let rest ← if always then pure [] else em.unmatched m
      return f (branches ++ rest) : Naming GenerateError Generated).run.run names).1 = (do
      let (branches, always) ← em.branches (m.branches.zip plans)
      let rest := if always then [] else em.rest m names.mint.1 names.mint.2.mint.1
      return f (branches ++ rest) : Except GenerateError Generated) := by
  unfold Emission.unmatched Emission.rest
  cases em.branches (m.branches.zip plans) with
  | error fault => rfl
  | ok r =>
    obtain ⟨branches, always⟩ := r
    cases always with
    | true => rfl
    | false =>
      cases m.fallback with
      | some handler => rfl
      | none => cases m.exhaustive <;> rfl

/-- The code with its names written out. -/
theorem generate_eq (m : MatchExpr) (options : GenerateOptions) (placement : Placement) (ordinal : Nat) :
    m.generate options placement ordinal = (do
      if let some fault := m.handlerFault? then throw fault
      if !placement.isStatement then
        if let some fault := m.awaitFault? then throw fault
      let (temp, names) := ({ ordinal } : FreshNames).mintIf placement.needsTemp
      let (label, names) := names.mintIf placement.isStatement
      let sink := placement.sink m.span temp label
      let (cache, names) := names.mintIf (m.needsCache options sink)
      let subject := (cache.map (Expr.ident m.span)).getD m.subject
      let em : Emission := { span := m.span, nullSafe := options.nullSafe, sink, subject }
      let (branches, always) ← em.branches (m.branches.zip (m.plans sink))
      let rest := if always then [] else em.rest m names.mint.1 names.mint.2.mint.1
      return m.assemble placement temp label cache (branches ++ rest) : Except GenerateError Generated) := by
  unfold generate attempt code emit
  cases m.handlerFault? with
  | some fault => rfl
  | none =>
    cases placement.isStatement with
    | true => exact m.run_branches _ _ _ _
    | false =>
      cases m.awaitFault? with
      | some fault => rfl
      | none => exact m.run_branches _ _ _ _

end MatchExpr

end MatchChain
