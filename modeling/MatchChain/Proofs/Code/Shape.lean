import MatchChain.Proofs.Code.NoMatch
import MatchChain.Proofs.Match.WellFormed

/-!
# The shape of generated code

Whatever the placement and the options are, the code of a match expression is its branches and what
follows them, in a function that is called at once or in a labelled block. `generate_shape` takes code
apart; it also tells when there is any.
-/

set_option autoImplicit false

namespace MatchChain

namespace MatchExpr

variable {m : MatchExpr} {options : GenerateOptions} {placement : Placement} {ordinal : Nat}

/-- How the code of a match expression is put together: `cache` is the name that the subject is read
    into, if it is read into one, and `body` the code of the branches and of what follows them. -/
structure Assembled (m : MatchExpr) (options : GenerateOptions) (cache : Option String) (em : Emission)
    (body : List Stmt) : Prop where
  span : em.span = m.span
  subject : em.subject = (cache.map (Expr.ident m.span)).getD m.subject
  cheap : cache = none → options.cost.isCheap m.subject = true
  body : ∃ stmts always shown error,
    em.branches (m.branches.zip (m.branches.map (·.handler.plan m.span em.sink.targetNames)))
      = .ok (stmts, always) ∧
    body = stmts ++ if always then [] else em.rest m shown error

/-- The labelled block around a body. -/
def block (m : MatchExpr) (label : String) (cache : Option String) (body : List Stmt) : Stmt :=
  .labeled m.span label (.block m.span ((cache.toList.map fun name =>
    Emission.declare m.span .constVar (.ident m.span name) (some m.subject)) ++ body))

theorem generate_value_shape {code : Generated} (h : m.generate options .value ordinal = .ok code) :
    m.handlerFault? = none ∧ m.awaitFault? = none ∧ ∃ cache em body, m.Assembled options cache em body ∧
      em.sink = .ret ∧ code = .expr (Emission.callAtOnce m.span (cache.map (·, m.subject)) body) := by
  rw [generate_eq] at h
  cases hfault : m.handlerFault? with
  | some fault =>
    rw [hfault] at h
    cases h
  | none =>
    cases hawait : m.awaitFault? with
    | some fault =>
      rw [hfault, hawait] at h
      cases h
    | none =>
      rw [hfault, hawait] at h
      refine ⟨rfl, rfl, ?_⟩
      have hsink : Placement.sink m.span none none .value = .ret := rfl
      simp only [Placement.needsTemp, Placement.isStatement, FreshNames.mintIf_false, hsink] at h
      cases hcache : m.needsCache options .ret with
      | false =>
        rw [hcache] at h
        obtain ⟨r, hr, h⟩ := exists_of_bind_eq_ok h
        cases h
        exact ⟨none, _, _, ⟨rfl, rfl, fun _ => isCheap_of_needsCache hcache, r.1, r.2, _, _, hr, rfl⟩, rfl, rfl⟩
      | true =>
        rw [hcache] at h
        obtain ⟨r, hr, h⟩ := exists_of_bind_eq_ok h
        cases h
        exact ⟨some _, _, _, ⟨rfl, rfl, by rintro ⟨⟩, r.1, r.2, _, _, hr, rfl⟩, rfl, rfl⟩

theorem generate_statement_shape {code : Generated} (hstatement : placement.isStatement = true)
    (h : m.generate options placement ordinal = .ok code) :
    m.handlerFault? = none ∧ ∃ cache em body target label temp, m.Assembled options cache em body ∧
      em.sink = .assign target label ∧ placement.target? m.span temp = some target ∧
      code = .stmts (Emission.place m.span (m.block label cache body) temp placement) := by
  have htarget : ∃ temp names target, ({ ordinal } : FreshNames).mintIf placement.needsTemp = (temp, names) ∧
      placement.target? m.span temp = some target := by
    cases placement with
    | value => cases hstatement
    | declaration kind name => cases kind <;> exact ⟨_, _, _, rfl, rfl⟩
    | destructuring kind target => exact ⟨_, _, _, rfl, rfl⟩
    | assignment target => exact ⟨_, _, _, rfl, rfl⟩
  obtain ⟨temp, fresh, target, htemp, htarget⟩ := htarget
  rw [generate_eq] at h
  cases hfault : m.handlerFault? with
  | some fault =>
    rw [hfault] at h
    cases h
  | none =>
    rw [hfault] at h
    refine ⟨rfl, ?_⟩
    have hsink (label : String) : Placement.sink m.span temp (some label) placement = .assign target label := by
      simp only [Placement.sink, htarget]
    simp only [hstatement, htemp, FreshNames.mintIf_true, hsink] at h
    cases hcache : m.needsCache options (.assign target fresh.mint.1) with
    | false =>
      rw [hcache] at h
      obtain ⟨r, hr, h⟩ := exists_of_bind_eq_ok h
      cases h
      exact ⟨none, _, _, target, _, temp, ⟨rfl, rfl, fun _ => isCheap_of_needsCache hcache, r.1, r.2, _, _, hr, rfl⟩,
        rfl, htarget, rfl⟩
    | true =>
      rw [hcache] at h
      obtain ⟨r, hr, h⟩ := exists_of_bind_eq_ok h
      cases h
      exact ⟨some _, _, _, target, _, temp, ⟨rfl, rfl, by rintro ⟨⟩, r.1, r.2, _, _, hr, rfl⟩, rfl, htarget, rfl⟩

end MatchExpr

end MatchChain
