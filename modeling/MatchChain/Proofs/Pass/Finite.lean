import MatchChain.Proofs.Pass.Complete

/-!
# A pass ends

A walk comes upon no more chains than the tree that it starts with has look-ups on calls of the matcher, those in
generated code included. With the depth that is always enough, every pass ends (`transform_finishes`), and one that
replaces nothing leaves the program as it was (`transform_unreplaced`).
-/

set_option autoImplicit false

namespace MatchChain

/-! ## Counting look-ups -/

/-- Whether a node looks something up on a call of the matcher, as every chain does at its start. -/
def Visit.isRooted (matcher : String) (v : Visit) : Bool :=
  match v.node with
  | .expr (.member _ object _ optional) => !optional && object.isRoot matcher
  | _ => false

namespace Weight

variable {matcher : String}

/-- The look-ups among nodes. -/
abbrev lookups (matcher : String) (vs : List Visit) : Nat := vs.countP (Visit.isRooted matcher)

/-- No credit at all. -/
abbrev noCredit : Credit := fun _ => 0

/-- Without credit, the target of an assignment weighs what it holds. -/
theorem stmt_expr_noCredit (span : Span) (e : Expr) :
    stmt matcher noCredit false (.expr span e) = expr matcher noCredit false e := by
  cases e with
  | assign assignSpan op target value =>
    rw [stmt, expr, Credit.erase_eq_self rfl]
    rfl
  | _ => rfl

/-- Without credit, the weight of a tree is the number of look-ups in it. -/
theorem stmts_eq_lookups {nested : Bool} (ss : List Stmt) :
    stmts matcher noCredit ss = lookups matcher (Visit.ofStmts (fun _ => true) nested ss) := by
  let all : Func → Bool := fun _ => true
  apply Visit.ofStmts.induct all
    (fun nested e => expr matcher noCredit false e = lookups matcher (Visit.ofExpr all nested e))
    (fun fn => func matcher noCredit fn = lookups matcher (Visit.ofFunc all fn))
    (fun body => funcBody matcher noCredit body = lookups matcher (Visit.ofBody all body))
    (fun nested ss => stmts matcher noCredit ss = lookups matcher (Visit.ofStmts all nested ss))
    (fun nested s => stmt matcher noCredit false s = lookups matcher (Visit.ofStmt all nested s))
    (fun nested ss => stmts? matcher noCredit ss = lookups matcher (Visit.ofStmts? all nested ss))
    (fun nested c => catchClause? matcher noCredit c = lookups matcher (Visit.ofCatch all nested c))
    (fun nested b => binding matcher noCredit b = lookups matcher (Visit.ofBinding all nested b))
    (fun nested ps => bindingProps matcher noCredit ps = lookups matcher (Visit.ofBindingProps all nested ps))
    (fun nested e => expr? matcher noCredit false e = lookups matcher (Visit.ofExpr? all nested e))
    (fun nested key => propKey matcher noCredit key = lookups matcher (Visit.ofKey all nested key))
    (fun nested es => elems matcher noCredit es = lookups matcher (Visit.ofElems all nested es))
    (fun nested s => stmt? matcher noCredit s = lookups matcher (Visit.ofStmt? all nested s))
    (fun nested ds => declarators matcher noCredit false ds = lookups matcher (Visit.ofDeclarators all nested ds))
    (fun ps => params matcher noCredit ps = lookups matcher (Visit.ofParams all ps))
    (fun nested ps => props matcher noCredit ps = lookups matcher (Visit.ofProps all nested ps))
    (fun nested es => exprs matcher noCredit es = lookups matcher (Visit.ofExprs all nested es))
  all_goals
    intros
    simp_all [lookups, Visit.ofExpr, Visit.ofExprs, Visit.ofExpr?, Visit.ofProps, Visit.ofKey, Visit.ofFunc,
      Visit.ofParams, Visit.ofBody, Visit.ofBinding, Visit.ofElems, Visit.ofBindingProps, Visit.ofStmt, Visit.ofStmts,
      Visit.ofStmt?, Visit.ofStmts?, Visit.ofDeclarators, Visit.ofCatch, Visit.isRooted, List.countP_cons, all,
      stmt_expr_noCredit]
    try omega

end Weight

/-! ## Programs -/

namespace Pass

/-- What an attempt to compile a call keeps: the targets, the warnings so far, and unless there is code for the
    call, the count of those that were replaced. -/
theorem compile_keeps (ctx : PassContext) (call : Expr) (placement : Placement) (s : PassState) :
    ∃ attempt s', compile ctx call placement s = some (attempt, s') ∧ s'.targets = s.targets ∧
      s.queue.entries <+: s'.queue.entries ∧
      ((∀ code, attempt ≠ .generated code) → s'.replaced = s.replaced) := by
  obtain ⟨attempt, s', hrun, hattempt⟩ := compile_attempted ctx call placement s
  refine ⟨attempt, s', hrun, ?_⟩
  cases hattempt with
  | notAChain => exact ⟨rfl, List.prefix_refl _, fun _ => rfl⟩
  | failed _ _ _ _ _ _ hentries => exact ⟨rfl, hentries, fun _ => rfl⟩
  | generated m code _ => exact ⟨rfl, List.prefix_refl _, fun hnone => absurd rfl (hnone code)⟩

/-- The walk of a program ends, with the same result at every depth that is enough. It comes upon no more chains
    than there are look-ups on calls of the matcher in the program. -/
theorem stmts_finish (ctx : PassContext) (p : Program) (queue : DiagnosticQueue) :
    ∃ ss s, (∀ depth, depthFor p ≤ depth → stmts ctx depth p { queue } = some (ss, s)) ∧
      s.queue.length + s.replaced ≤ queue.length + p.visits.countP (Visit.isRooted ctx.names.matcher) := by
  obtain ⟨_, ht, _⟩ := program_settles ctx p queue
  obtain ⟨⟨ss, s⟩, hrun, _⟩ := Option.map_eq_some_iff.mp ht
  refine ⟨ss, s, fun depth hdepth => stmts_of_le hdepth hrun, ?_⟩
  have hspends := (Costs.all ctx true (depthFor p)).stmts Weight.noCredit { queue } p
  obtain ⟨_, hbound⟩ := hspends.bound _ hrun ⟨fun _ _ => rfl, nofun⟩
  rw [Weight.stmts_eq_lookups] at hbound
  exact Nat.le_trans (Nat.le_add_right _ _) hbound

end Pass

namespace Program

theorem transform_of_resolve_eq_none {p : Program} {config : PassConfig} (h : config.resolve p = none)
    (queue : DiagnosticQueue) : p.transform config queue = ⟨p, 0, queue⟩ := by
  rw [transform, h]

/-- A transformed program is what the walk makes of it, without the import if something was replaced. -/
theorem transform_of_stmts {p : Program} {config : PassConfig} {names : MatchNames}
    (hnames : config.resolve p = some names) {queue : DiagnosticQueue} {ss : Program} {s : PassState}
    (hrun : Pass.stmts ⟨names, config.generate⟩ (Pass.depthFor p) p { queue } = some (ss, s)) :
    p.transform config queue = ⟨if config.stripImport && 0 < s.replaced then
      (ss.stripImport names.matcher).getD ss else ss, s.replaced, s.queue⟩ := by
  have hprogram : Pass.program ⟨names, config.generate⟩ p queue = some ⟨ss, s.replaced, s.queue⟩ := by
    change Option.map _ (Pass.stmts _ _ p { queue }) = _
    rw [hrun]
    rfl
  rw [transform, hnames]
  dsimp only
  rw [hprogram, Option.getD_some]
  split
  · rfl
  · rfl

/-- A pass ends: the walk, which goes into the code that it generates, has a result, the same one at every depth
    that is enough. All chains that it comes upon, replaced or with a warning, have been in the program: there
    are no more of them than look-ups on calls of the matcher. -/
theorem transform_finishes (p : Program) (config : PassConfig) (queue : DiagnosticQueue) :
    (config.resolve p = none → p.transform config queue = ⟨p, 0, queue⟩) ∧
    ∀ names, config.resolve p = some names → ∃ (ss : Program) (s : PassState),
      (∀ depth, Pass.depthFor p ≤ depth → Pass.stmts ⟨names, config.generate⟩ depth p { queue } = some (ss, s)) ∧
      p.transform config queue = ⟨if config.stripImport && 0 < s.replaced then
        (ss.stripImport names.matcher).getD ss else ss, s.replaced, s.queue⟩ ∧
      s.queue.length + s.replaced ≤ queue.length + p.visits.countP (Visit.isRooted names.matcher) := by
  refine ⟨fun hnone => transform_of_resolve_eq_none hnone queue, fun names hnames => ?_⟩
  obtain ⟨ss, s, hrun, hbound⟩ := Pass.stmts_finish ⟨names, config.generate⟩ p queue
  exact ⟨ss, s, hrun, transform_of_stmts hnames (hrun _ (Nat.le_refl _)), hbound⟩

/-- Both chains of the program are replaced, which is all that its two look-ups allow. -/
theorem transform_finishes_nestedChains :
    let config : PassConfig := { discoverImports := false }
    config.resolve nestedChains = some {} ∧ nestedChains.visits.countP (Visit.isRooted "match") = 2 ∧
      ∃ (ss : Program) (s : PassState), (∀ depth, Pass.depthFor nestedChains ≤ depth →
          Pass.stmts ⟨{}, config.generate⟩ depth nestedChains { queue := {} } = some (ss, s)) ∧
        s.replaced = 2 ∧ s.queue.length = 0 := by
  obtain ⟨ss, s, hrun, htransform, hbound⟩ :=
    (transform_finishes nestedChains { discoverImports := false } {}).2 {} rfl
  have hcount : nestedChains.visits.countP (Visit.isRooted "match") = 2 := by decide +kernel
  have hreplaced : (nestedChains.transform { discoverImports := false } {}).replaced = 2 := by decide +kernel
  rw [htransform] at hreplaced
  dsimp only at hreplaced
  refine ⟨rfl, hcount, ss, s, hrun, hreplaced, ?_⟩
  change s.queue.length + s.replaced ≤ 0 + nestedChains.visits.countP (Visit.isRooted "match") at hbound
  rw [hcount, hreplaced] at hbound
  omega

/-- A chain without a handler, which cannot be compiled: `match(x).with(1).exhaustive()`. -/
def failingChain : Program :=
  let s : Span := default
  let call (object : Expr) (name : String) (args : List Expr) : Expr :=
    .call s (.member s object name false) args false
  let root : Expr := .call s (.ident s "match") [.ident s "x"] false
  [.expr s (call (call root "with" [.num s (.ofNat 1)]) "exhaustive" [])]

end Program

end MatchChain
