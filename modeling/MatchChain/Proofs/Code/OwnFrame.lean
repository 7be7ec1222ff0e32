import MatchChain.Code.Generate
import MatchChain.Proofs.Syntax.Visited

/-!
# What a function takes from its own call

A function that is no arrow function has a `this` and `arguments` of its own, and whatever it holds
shares them unless it lies inside another such function. A function is moved only if nothing in its body
uses them: the check finds every use that there is in the body, and no other.

It looks at nothing but the body. A pattern of a parameter counts by the names it binds, and the name of
the function not at all, so a use in a default inside a pattern is moved along and changes what it means.
-/

set_option autoImplicit false

namespace MatchChain

/-- Whether an expression is one that a call supplies. -/
def Expr.needsFrame : Expr → Bool
  | .thisRef _ => true
  | .ident _ name => name == "arguments"
  | _ => false

/-- The first part holds the second, outside functions with a frame of their own. -/
abbrev Part.Shares : Part → Part → Prop := Part.Holds Func.isArrow

namespace Func

variable {fn : Func} {targetNames : List String}

/-- The body uses what its own call supplies. -/
def NeedsFrame (fn : Func) : Prop :=
  ∃ c ∈ Part.ofBody fn.body, ∃ e, c.Shares (.expr e) ∧ e.needsFrame = true

/-- No parameter has a default of its own or takes the rest. -/
def HasPlainParams (fn : Func) : Prop := ∀ p ∈ fn.params, p.rest = false ∧ p.default = none

theorem visits_of_plain (hplain : fn.HasPlainParams) :
    fn.visits.filterMap Visit.expr? = (Part.ofBody fn.body).flatMap (Part.exprs Func.isArrow false) := by
  have hdefaults : (fn.params.flatMap fun p => Visit.ofExpr? isArrow false p.default) = [] := by
    refine List.flatMap_eq_nil_iff.mpr fun p hp => ?_
    rw [(hplain p hp).2, Visit.ofExpr?]
  unfold visits
  rw [hdefaults, List.append_nil]
  cases fn.body with
  | expr e => simp [Part.ofBody, Part.exprs, Part.visits]
  | block ss => simpa [Part.ofBody] using Part.filterMap_ofStmts Func.isArrow false ss

/-- The check asks for an expression that a call supplies. -/
theorem usesFrame_eq (fn : Func) : (fn.facts.usesThis || fn.facts.usesArguments)
    = (fn.visits.filterMap Visit.expr?).any Expr.needsFrame := by
  dsimp only [facts]
  induction fn.visits with
  | nil => rfl
  | cons v vs ih =>
    have hcomm : ∀ a b c d : Bool, ((a || b) || (c || d)) = ((a || c) || (b || d)) := by decide
    rw [List.any_cons, List.any_cons, hcomm, ih]
    obtain ⟨node, nested⟩ := v
    cases node with
    | expr e => cases e <;> rfl
    | stmt | binding => rfl

/-- The check for `this` and `arguments` finds exactly the uses in the body. -/
theorem usesFrame_iff (hplain : fn.HasPlainParams) :
    (fn.facts.usesThis || fn.facts.usesArguments) = true ↔ fn.NeedsFrame := by
  rw [usesFrame_eq, visits_of_plain hplain, List.any_eq_true]
  constructor
  · rintro ⟨e, he, hneeds⟩
    obtain ⟨c, hc, he⟩ := List.mem_flatMap.mp he
    exact ⟨c, hc, e, Part.holds_of_mem_exprs he, hneeds⟩
  · rintro ⟨c, hc, e, he, hneeds⟩
    exact ⟨e, List.mem_flatMap.mpr ⟨c, hc, Part.mem_exprs_of_holds he false⟩, hneeds⟩

theorem hasPlainParams_iff (fn : Func) :
    (fn.params.any fun p => p.rest || p.default.isSome) = false ↔ fn.HasPlainParams := by
  simp [HasPlainParams]

/-- A function is called for its own frame if its body uses the frame and no earlier reason applies. -/
theorem refusal?_eq_ownFrame_iff : fn.refusal? targetNames = some .ownFrame ↔
    fn.isAsync = false ∧ fn.isGenerator = false ∧ fn.HasPlainParams ∧ fn.isArrow = false ∧ fn.NeedsFrame := by
  rw [← hasPlainParams_iff]
  cases hplain : (fn.params.any fun p => p.rest || p.default.isSome) with
  | true => grind [refusal?]
  | false =>
    rw [← usesFrame_iff ((hasPlainParams_iff fn).mp hplain)]
    grind [refusal?]

/-- A function that is moved, and is no arrow function, uses nothing of its own call in its body. -/
theorem not_needsFrame_of_moved (hkind : fn.isArrow = false) (h : fn.refusal? targetNames = none) :
    fn.HasPlainParams ∧ ¬ fn.NeedsFrame := by
  have hplain : fn.HasPlainParams := by
    rw [← hasPlainParams_iff]
    grind [refusal?]
  refine ⟨hplain, ?_⟩
  rw [← usesFrame_iff hplain]
  grind [refusal?]

/-- What is looked at of a parameter: the names it binds, its default and whether it takes the rest. -/
def paramFace (p : Param) : List String × Option Expr × Bool := (p.target.names, p.default, p.rest)

/-- Whether a function is moved depends on the patterns of its parameters by the names that they bind alone, and
    not on its own name. -/
theorem refusal?_congr {params : List Param} (hparams : params.map paramFace = fn.params.map paramFace)
    (name : Option String) : { fn with name, params }.refusal? targetNames = fn.refusal? targetNames := by
  have hnames : params.flatMap (·.target.names) = fn.params.flatMap (·.target.names) := by
    simpa [List.flatMap_map, paramFace] using congrArg (List.flatMap (·.1)) hparams
  have hdefaults : (params.flatMap fun p => Visit.ofExpr? isArrow false p.default)
      = fn.params.flatMap fun p => Visit.ofExpr? isArrow false p.default := by
    simpa [List.flatMap_map, paramFace] using congrArg (List.flatMap (Visit.ofExpr? isArrow false ·.2.1)) hparams
  have hplain : (params.any fun p => p.rest || p.default.isSome)
      = fn.params.any fun p => p.rest || p.default.isSome := by
    simpa [List.any_map, paramFace, Function.comp_def] using
      congrArg (List.any · fun f => f.2.2 || f.2.1.isSome) hparams
  have hfacts : facts { fn with name, params } = fn.facts := by
    simp only [facts, visits, topLevelNames, hnames, hdefaults]
  unfold refusal?
  dsimp only
  rw [hfacts, hplain]
  rfl

/-- A function whose parameter has `this` for a default inside its pattern, `function ({ a = this }) { return a; }`. -/
def readsThisInPattern : Func where
  span := default
  kind := .expression
  name := none
  params := [⟨default, .object default [.item (.ident "a") (.ident default "a") (some (.thisRef default)) true],
    none, false⟩]
  body := .block [.ret default (some (.ident default "a"))]
  isAsync := false
  isGenerator := false

end Func

/-- A match expression with that function for its only handler. -/
def MatchExpr.handledInPattern : MatchExpr where
  subject := .ident default "s"
  branches := [{ patterns := [.wildcard], guard := none, span := default, handler := .inline Func.readsThisInPattern }]
  fallback := none
  exhaustive := false
  span := default

/-- The function is moved, and its `this` becomes that of the code around it. -/
theorem MatchExpr.generate_handledInPattern :
    handledInPattern.generate {} (.declaration .letVar "r") 0 = .ok (.stmts [
      Emission.declare default .letVar (.ident default "r") none,
      .labeled default "__patty_0_0" (.block default [.block default [
        Emission.declare default .letVar
          (.object default [.item (.ident "a") (.ident default "a") (some (.thisRef default)) true])
          (some (.ident default "s")),
        .expr default (.assign default .assign (.ident default "r") (.ident default "a")),
        .breakTo default (some "__patty_0_0")]])]) := by
  rfl

end MatchChain
