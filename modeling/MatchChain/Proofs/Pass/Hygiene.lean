import MatchChain.Proofs.Pass.Finite
import MatchChain.Proofs.Syntax.Spans

/-!
# Names and branches of a program

The names that a pass makes up are distinct, and a name of the program is among them only if it has
their form. The form is not kept free: a program may use such a name, and the code then binds it a second
time.

No branch of a program that was read dangles, and a pass lets none dangle.
-/

set_option autoImplicit false

namespace MatchChain

variable {p : Program}

variable {D : Prop} {A : String → Prop}

namespace Pass

/-- A walk leaves distinct names behind and, where these may occur, a clean program. -/
theorem clean_walk {ctx : PassContext} {p ss : Program} {queue : DiagnosticQueue} {s : PassState}
    (h : walk ctx p queue = some (ss, s)) :
    Numbered s ∧ ((∀ x ∈ s.minted, A x) → (∀ s ∈ p, s.Clean D A) → ∀ s ∈ ss, s.Clean D A) := by
  obtain ⟨_, _, hwalk, hnumbered, hq⟩ := walk_settles ctx p queue
  cases h.symm.trans hwalk
  refine ⟨hnumbered, fun hnames hp => ?_⟩
  obtain ⟨_, _, hclean⟩ := hq ⟨true, True, D, A⟩ ⟨.inl rfl, hnames⟩ fun _ => Part.forall_stmts.mpr hp
  exact Part.forall_stmts.mp (hclean trivial)

end Pass

/-! ## Without the import -/

theorem Stmt.clean_withoutImport {name : String} {s s' : Stmt} (h : s.withoutImport name = some s')
    (hs : s.Clean D A) : s'.Clean D A := by
  unfold withoutImport at h
  split at h
  · split at h
    · dsimp only at h
      split at h
      · cases h
      · cases h
        refine .plain rfl rfl (List.forall_mem_map.mpr fun specifier hmem => ?_)
        exact List.forall_mem_map.mp hs.children specifier (List.mem_of_mem_filter hmem)
    · cases h
      exact hs
  · cases h
    exact hs

theorem Program.clean_stripImport {p p' : Program} {matcher : String} (h : p.stripImport matcher = some p')
    (hp : ∀ s ∈ p, s.Clean D A) : ∀ s ∈ p', s.Clean D A := by
  unfold stripImport strip at h
  cases hmentioned : p.mentions matcher with
  | true =>
    rw [hmentioned] at h
    cases h
  | false =>
    simp only [hmentioned, Bool.false_eq_true, if_false, Option.ite_none_right_eq_some, Option.some.injEq] at h
    obtain ⟨_, rfl⟩ := h
    intro s' hs'
    obtain ⟨s, hs, heq⟩ := List.mem_filterMap.mp hs'
    exact Stmt.clean_withoutImport heq (hp s hs)

/-! ## Transformed programs -/

namespace Program

/-- The walk that a transformed program and the names in it come from. -/
theorem exists_walk {config : PassConfig} {names : MatchNames} (h : config.resolve p = some names)
    (queue : DiagnosticQueue) : ∃ (ss : Program) (s : PassState),
      Pass.walk ⟨names, config.generate⟩ p queue = some (ss, s) ∧ p.minted config queue = s.minted ∧
      (p.transform config queue).program
        = if config.stripImport && 0 < s.replaced then (ss.stripImport names.matcher).getD ss else ss := by
  obtain ⟨ss, s, hrun, _⟩ := Pass.stmts_finish ⟨names, config.generate⟩ p queue
  have hwalk : Pass.walk ⟨names, config.generate⟩ p queue = some (ss, s) := hrun _ (Nat.le_refl _)
  refine ⟨ss, s, hwalk, ?_, by rw [transform_of_stmts h (hrun _ (Nat.le_refl _))]⟩
  rw [minted, h]
  dsimp only
  rw [hwalk]
  rfl

/-- The names that are made up are distinct and have the form of such names. -/
theorem minted_numbered (p : Program) (config : PassConfig) (queue : DiagnosticQueue) :
    (p.minted config queue).Nodup ∧ ∀ x ∈ p.minted config queue, FreshNames.Reserved x := by
  cases h : config.resolve p with
  | none =>
    rw [minted, h]
    exact ⟨.nil, nofun⟩
  | some names =>
    obtain ⟨ss, s, hwalk, hminted, _⟩ := exists_walk h queue
    obtain ⟨hnumbered, _⟩ := Pass.clean_walk (D := False) (A := fun _ => True) hwalk
    rw [hminted]
    refine ⟨hnumbered.distinct, fun x hx => ?_⟩
    obtain ⟨ordinal, _, hmints⟩ := hnumbered.given x hx
    exact ⟨ordinal, hmints⟩

theorem clean_transform {config : PassConfig} {queue : DiagnosticQueue}
    (hnames : ∀ x ∈ p.minted config queue, A x) (hp : ∀ s ∈ p, s.Clean D A) :
    ∀ s ∈ (p.transform config queue).program, s.Clean D A := by
  cases h : config.resolve p with
  | none =>
    rw [transform_of_resolve_eq_none h]
    exact hp
  | some names =>
    obtain ⟨ss, s, hwalk, hminted, hprogram⟩ := exists_walk h queue
    rw [hminted] at hnames
    have hss := (Pass.clean_walk hwalk).2 hnames hp
    rw [hprogram]
    split
    · cases hstrip : ss.stripImport names.matcher with
      | none => exact hss
      | some stripped => exact clean_stripImport hstrip hss
    · exact hss

/-! ## Branches -/

/-- No `else` of a transformed program stands after a branch that would take it, unless one of the program
    did. -/
theorem attached_transform (h : p.Attached) (config : PassConfig) (queue : DiagnosticQueue) :
    (p.transform config queue).program.Attached := by
  have hp : ∀ s ∈ p, s.Clean True fun _ => True := fun s hs =>
    (h s hs).imp fun _ hn => ⟨fun _ => hn, fun _ _ => .inr trivial⟩
  exact fun s hs => (clean_transform (fun _ _ => trivial) hp s hs).imp fun _ hn => hn.attached trivial

/-- Whatever is read keeps every `else` at its `if`, and so does what a pass makes of it. -/
theorem attached_of_parse {source : String} (h : Program.parse source = .ok p) :
    p.Attached ∧ ∀ config queue, (p.transform config queue).program.Attached := by
  have hp : p.Attached := fun s hs =>
    (all_good_of_parse (L := .blind) trivial h s hs).imp fun _ hgood => hgood.attached
  exact ⟨hp, attached_transform hp⟩

/-! ## Names -/

theorem everyName_transform (h : p.EveryName A) (config : PassConfig) (queue : DiagnosticQueue) :
    (p.transform config queue).program.EveryName fun x =>
      x ∈ Emission.globals ∨ A x ∨ x ∈ p.minted config queue := by
  have hp : ∀ s ∈ p, s.Clean False fun x => A x ∨ x ∈ p.minted config queue := fun s hs =>
    (h s hs).imp fun _ hn => ⟨nofun, fun x hx => .inr (.inl (hn x hx))⟩
  exact fun s hs => (clean_transform (fun _ hx => .inr hx) hp s hs).imp fun _ hn => hn.named

/-- For every match expression that is compiled, names are made up. They are distinct, also over nested
    expressions, and differ from every name in the program that does not have their form. A transformed
    program has no other names than these, those of the program and some globals. -/
theorem minted_fresh (p : Program) (config : PassConfig) (queue : DiagnosticQueue) :
    (∀ names, config.resolve p = some names → ∃ ss s,
      Pass.walk ⟨names, config.generate⟩ p queue = some (ss, s) ∧ p.minted config queue = s.minted) ∧
    (p.minted config queue).Nodup ∧ (∀ x ∈ p.minted config queue, FreshNames.Reserved x) ∧
    (p.EveryName (fun x => ¬ FreshNames.Reserved x) → p.EveryName (· ∉ p.minted config queue)) ∧
    ∀ A, p.EveryName A → (p.transform config queue).program.EveryName fun x =>
      x ∈ Emission.globals ∨ A x ∨ x ∈ p.minted config queue := by
  obtain ⟨hdistinct, hreserved⟩ := minted_numbered p config queue
  refine ⟨fun names h => ?_, hdistinct, hreserved, fun h s hs => ?_, fun A h => everyName_transform h config queue⟩
  · obtain ⟨ss, s, hwalk, hminted, _⟩ := exists_walk h queue
    exact ⟨ss, s, hwalk, hminted⟩
  · exact (h s hs).imp fun _ hn x hx hmem => hn x hx (hreserved x hmem)

theorem minted_fresh_nestedChains :
    let config : PassConfig := { discoverImports := false }
    nestedChains.minted config {} = ["__patty_0_0", "__patty_0_1", "__patty_1_0"] ∧
      (nestedChains.minted config {}).Nodup ∧
      nestedChains.EveryName (fun x => ¬ FreshNames.Reserved x) ∧
      nestedChains.EveryName (· ∉ nestedChains.minted config {}) := by
  -- every part of the tree has one of a few names, or none
  have hnames : nestedChains.EveryName (fun x => ¬ FreshNames.Reserved x) := by
    repeat' first
      | exact List.forall_mem_nil _
      | refine List.forall_mem_cons.mpr ⟨?_, ?_⟩
      | refine Part.All.intro ?_ ?_
      | exact FreshNames.not_reserved (by decide)
  obtain ⟨_, hdistinct, _, hfresh, _⟩ := minted_fresh nestedChains { discoverImports := false } {}
  exact ⟨by decide +kernel, hdistinct, hnames, hfresh hnames⟩

/-- `let __patty_0_1 = 7; let r = match(5).with(P._, (x) => __patty_0_1).run();` -/
def borrowedName : Program :=
  let s : Span := default
  let call (object : Expr) (name : String) (args : List Expr) : Expr :=
    .call s (.member s object name false) args false
  let handler := .func s
    ⟨s, .arrow, none, [⟨s, .ident s "x", none, false⟩], .expr (.ident s "__patty_0_1"), false, false⟩
  let chain := call (call (.call s (.ident s "match") [.num s (.ofNat 5)] false) "with"
    [.member s (.ident s "P") "_" false, handler]) "run" []
  [.varDecl s .letVar [⟨s, .ident s "__patty_0_1", some (.num s (.ofNat 7))⟩],
    .varDecl s .letVar [⟨s, .ident s "r", some chain⟩]]

/-- The form of the names that are made up is not kept free: the subject is read into a name that the
    handler means something else by. -/
theorem minted_borrowedName :
    ¬ borrowedName.EveryName (· ∉ borrowedName.minted { discoverImports := false } {}) := by
  intro h
  have hdeclarator := (h _ (.head _)).children _ (.head _)
  have hbinding := hdeclarator.children (.binding (.ident default "__patty_0_1")) (.head _)
  exact hbinding.here "__patty_0_1" (.head _) (by decide +kernel)

end Program

end MatchChain
