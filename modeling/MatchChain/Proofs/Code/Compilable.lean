import MatchChain.Proofs.Code.Attempt
import MatchChain.Proofs.Match.Clauses

/-!
# Code for every match expression that is read

Generating code fails for three reasons: a handler that cannot be called, an expression that waits, and
a pattern without a test. Reading a chain rules the third one out, whatever the placement and the
options are.
-/

set_option autoImplicit false

namespace MatchChain

namespace Emission

/-- Branches whose patterns all have a test become statements. -/
theorem branches_eq_ok (em : Emission) {bs : List (Branch × Invocation)}
    (h : ∀ b ∈ bs, ∀ p ∈ b.1.patterns, p.Testable) : ∃ r, em.branches bs = .ok r := by
  induction bs with
  | nil => exact ⟨_, rfl⟩
  | cons b bs ih =>
    obtain ⟨b, plan⟩ := b
    obtain ⟨hb, hbs⟩ := List.forall_mem_cons.mp h
    have hcheck : b.patterns.forM (Pattern.checkTestable em.span) = .ok () :=
      (Pattern.forM_checkTestable_eq_ok_iff em.span b.patterns).mpr fun p hp =>
        (Pattern.unsupported?_eq_none_iff p).mpr (hb p hp)
    obtain ⟨⟨stmts, always⟩, hrest⟩ := ih hbs
    rw [branches, hcheck, hrest]
    cases em.condition? b with
    | none => exact ⟨_, rfl⟩
    | some test => exact ⟨_, rfl⟩

end Emission

namespace MatchExpr

variable {m : MatchExpr} {options : GenerateOptions} {placement : Placement} {ordinal : Nat}

/-- Why no code is generated. -/
theorem generate_eq_error {fault : GenerateError}
    (h : m.generate options placement ordinal = .error fault) :
    m.handlerFault? = some fault ∨ (placement = .value ∧ m.awaitFault? = some fault) ∨
      ∃ (em : Emission) (plans : List Invocation),
        em.branches (m.branches.zip plans) = .error fault := by
  rw [generate_eq] at h
  cases hhandler : m.handlerFault? with
  | some found =>
    rw [hhandler] at h
    cases h
    exact .inl rfl
  | none =>
    rw [hhandler] at h
    right
    -- Whether the placement asks for the second check or passes over it, the branches come next.
    have hbranches : ∀ (em : Emission) (plans : List Invocation) (k : List Stmt × Bool → Generated),
        (em.branches (m.branches.zip plans) >>= fun r => Except.ok (k r)) = .error fault →
          ∃ (em : Emission) (plans : List Invocation),
            em.branches (m.branches.zip plans) = .error fault := by
      intro em plans k hk
      cases hrun : em.branches (m.branches.zip plans) with
      | error found =>
        rw [hrun] at hk
        cases hk
        exact ⟨em, plans, hrun⟩
      | ok r =>
        rw [hrun] at hk
        cases hk
    cases placement with
    | value =>
      cases hawait : m.awaitFault? with
      | some found =>
        rw [hawait] at h
        cases h
        exact .inl ⟨rfl, rfl⟩
      | none =>
        rw [hawait] at h
        exact .inr (hbranches _ _ (fun r => .expr _) h)
    | declaration kind name =>
      cases kind <;> exact .inr (hbranches _ _ (fun r => .stmts _) h)
    | destructuring kind target => exact .inr (hbranches _ _ (fun r => .stmts _) h)
    | assignment target => exact .inr (hbranches _ _ (fun r => .stmts _) h)

/-- A match expression whose patterns all have a test is never refused for one of them. -/
theorem generate_ne_unsupportedPattern (h : ∀ b ∈ m.branches, ∀ p ∈ b.patterns, p.Testable)
    (options : GenerateOptions) (placement : Placement) (ordinal : Nat) (kind : String)
    (span : Span) : m.generate options placement ordinal ≠ .error (.unsupportedPattern kind span) := by
  intro hfault
  rcases generate_eq_error hfault with hhandler | ⟨_, hawait⟩ | ⟨em, plans, hbranches⟩
  · obtain ⟨_, _, heq⟩ := Option.map_eq_some_iff.mp hhandler
    cases heq
  · obtain ⟨_, _, heq⟩ := Option.map_eq_some_iff.mp hawait
    cases heq
  · have htestable : ∀ b ∈ m.branches.zip plans, ∀ p ∈ b.1.patterns, p.Testable :=
      fun b hb => h b.1 (List.of_mem_zip hb).1
    obtain ⟨r, hr⟩ := em.branches_eq_ok htestable
    rw [hr] at hbranches
    cases hbranches

end MatchExpr

namespace MatchNames

/-- What is read from a chain can be compiled. The branches are those of the clauses that the expression
    chains, in order. Each has an alternative, a test for every part of its patterns, and captures that
    can be handed over; at most one of a fallback and the assertion that some branch is taken is there.
    So no pattern is ever refused when code is generated. -/
theorem read_compilable {names : MatchNames} {e : Expr} {m : MatchExpr}
    (h : names.read e = .ok (some m)) :
    (∃ calls, Chain.Spells names.matcher calls e ∧
      List.Forall₂ names.Clause (calls.tail.filter names.isClause) m.branches) ∧
    (∀ b ∈ m.branches, b.patterns ≠ [] ∧ (∀ p ∈ b.patterns, p.Testable) ∧ b.ValidCaptures) ∧
    ¬ (m.fallback.isSome = true ∧ m.exhaustive = true) ∧
    ∀ (options : GenerateOptions) (placement : Placement) (ordinal : Nat) (kind : String) (span : Span),
      m.generate options placement ordinal ≠ .error (.unsupportedPattern kind span) := by
  obtain ⟨calls, hspells, hclauses, hbranches, hterminal⟩ := read_adds h
  refine ⟨⟨calls, hspells, hclauses⟩, ?_, hterminal, ?_⟩
  · exact fun b hb =>
      ⟨(hbranches b hb).alternatives, (hbranches b hb).testable, (hbranches b hb).captures⟩
  · exact MatchExpr.generate_ne_unsupportedPattern fun b hb => (hbranches b hb).testable

/-- A chain with a selection inside an object, a guard and a fallback:
    `match(x).with({ kind: 'circle', r: P.select('radius') }, area).with([P.number], (v) => v, head)`
    with `.otherwise(none)` after it. -/
def shapeChain : Expr :=
  let s : Span := default
  let call (object : Expr) (name : String) (args : List Expr) : Expr :=
    .call s (.member s object name false) args false
  let circle := .object s [.init s (.ident "kind") (.str s "circle") false,
    .init s (.ident "r") (call (.ident s "P") "select" [.str s "radius"]) false]
  let param : Param := ⟨s, .ident s "v", none, false⟩
  let guard := .func s ⟨s, .arrow, none, [param], .expr (.ident s "v"), false, false⟩
  let root := .call s (.ident s "match") [.ident s "x"] false
  let first := call root "with" [circle, .ident s "area"]
  let second := call first "with"
    [.array s [.member s (.ident s "P") "number" false], guard, .ident s "head"]
  call second "otherwise" [.ident s "none"]

theorem read_shapeChain :
    ∃ m, ({} : MatchNames).read shapeChain = .ok (some m) ∧ m.branches.length = 2 ∧
      m.fallback.isSome = true ∧
      (∀ b ∈ m.branches, b.patterns ≠ [] ∧ (∀ p ∈ b.patterns, p.Testable) ∧ b.ValidCaptures) ∧
      ∀ (options : GenerateOptions) (placement : Placement) (ordinal : Nat) (kind : String)
        (span : Span),
        m.generate options placement ordinal ≠ .error (.unsupportedPattern kind span) := by
  have hread : ∃ m, ({} : MatchNames).read shapeChain = .ok (some m) ∧ m.branches.length = 2 ∧
      m.fallback.isSome = true := ⟨_, rfl, rfl, rfl⟩
  obtain ⟨m, hm, hlength, hfallback⟩ := hread
  obtain ⟨_, hbranches, _, hcode⟩ := read_compilable hm
  exact ⟨m, hm, hlength, hfallback, hbranches, hcode⟩

end MatchNames

end MatchChain
