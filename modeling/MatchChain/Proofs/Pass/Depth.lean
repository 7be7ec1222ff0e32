import MatchChain.Pass.Depth
import MatchChain.Proofs.Code.Accesses
import MatchChain.Proofs.Code.Redirect
import MatchChain.Proofs.Code.Shape
import MatchChain.Proofs.Match.Clauses

/-!
# How deep generated code is

The code of a chain needs no more depth than the chain itself: its tests, captures and handlers are paid
for by the calls that they were read from.
-/

set_option autoImplicit false

namespace MatchChain

namespace Depth

variable {known : Span → Bool} {limit : Nat}

attribute [simp] expr exprs expr? props prop propKey func params funcBody binding elems elem bindingProps bindingProp
  stmt stmts stmt? stmts? declarators catchClause?

/-! ## Lists -/

theorem exprs_le_iff {es : List Expr} : exprs known es ≤ limit ↔ ∀ e ∈ es, expr known e ≤ limit := by
  induction es <;> simp_all

theorem props_le_iff {ps : List Property} : props known ps ≤ limit ↔ ∀ p ∈ ps, prop known p ≤ limit := by
  induction ps <;> simp_all

theorem params_le_iff {ps : List Param} : params known ps ≤ limit
    ↔ ∀ p ∈ ps, binding known p.target ≤ limit ∧ expr? known p.default ≤ limit := by
  induction ps with
  | nil => simp
  | cons p ps ih => cases p; simp [ih, and_assoc]

theorem elems_le_iff {es : List BindingElem} : elems known es ≤ limit ↔ ∀ e ∈ es, elem known e ≤ limit := by
  induction es <;> simp_all

theorem bindingProps_le_iff {ps : List BindingProp} :
    bindingProps known ps ≤ limit ↔ ∀ p ∈ ps, bindingProp known p ≤ limit := by
  induction ps <;> simp_all

theorem declarators_le_iff {ds : List Declarator} : declarators known ds ≤ limit
    ↔ ∀ d ∈ ds, binding known d.target + expr? known d.init ≤ limit := by
  induction ds with
  | nil => simp
  | cons d ds ih => cases d; simp [ih]

theorem stmts_le_iff {ss : List Stmt} :
    stmts known ss ≤ limit ↔ 4 ≤ limit ∧ ∀ s ∈ ss, 4 + stmt known s ≤ limit := by
  induction ss <;> simp_all [and_left_comm]

theorem catchClause?_le_iff {c : CatchClause} : catchClause? known (some c) ≤ limit
    ↔ (∀ b ∈ c.param, binding known b ≤ limit) ∧ stmts known c.body ≤ limit := by
  rcases c with ⟨_ | param, body⟩ <;> simp

theorem stmts_append_le {ss ss' : List Stmt} (h : stmts known ss ≤ limit) (h' : stmts known ss' ≤ limit) :
    stmts known (ss ++ ss') ≤ limit := by
  rw [stmts_le_iff] at h h' ⊢
  exact ⟨h.1, List.forall_mem_append.mpr ⟨h.2, h'.2⟩⟩

theorem stmts_singleton (s : Stmt) : stmts known [s] = 4 + stmt known s := by
  rw [stmts, stmts]
  omega

theorem four_le_stmts (known : Span → Bool) (ss : List Stmt) : 4 ≤ stmts known ss := (stmts_le_iff.mp (Nat.le_refl _)).1

/-- A call pays for a link of a chain, unless it calls a function on the spot. -/
theorem expr_call {callee : Expr} (h : callee.isFunc = false) (span : Span) (args : List Expr) (optional : Bool) :
    expr known (.call span callee args optional)
      = link + 32 * breadths args + expr known callee + exprs known args := by
  cases callee with
  | func => cases h
  | _ => rfl

/-- A call is deeper than its parts, and no deeper than a link of a chain. -/
theorem expr_call_bounds (known : Span → Bool) (span : Span) (callee : Expr) (args : List Expr) (optional : Bool) :
    4 + max (expr known callee) (exprs known args) ≤ expr known (.call span callee args optional) ∧
      expr known (.call span callee args optional)
        ≤ link + 32 * breadths args + expr known callee + exprs known args := by
  cases hfunc : callee.isFunc with
  | false =>
    rw [expr_call hfunc, link]
    omega
  | true =>
    cases callee with
    | func span fn =>
      rw [expr, expr, link]
      omega
    | _ => cases hfunc

theorem parts_le_call {span : Span} {callee : Expr} {args : List Expr} {optional : Bool}
    (h : expr known (.call span callee args optional) ≤ limit + 2) :
    expr known callee ≤ limit ∧ exprs known args ≤ limit := by
  have := expr_call_bounds known span callee args optional
  omega

theorem four_le_expr (known : Span → Bool) (e : Expr) : 4 ≤ expr known e := by
  cases e with
  | call span callee args optional =>
    have := expr_call_bounds known span callee args optional
    omega
  | ident | str | num | bigint | bool | null | thisRef => exact Nat.le_refl 4
  | _ => exact Nat.le_add_right 4 _

end Depth

/-! ## Patterns -/

namespace Pattern

mutual

/-- How much a pattern adds to the code. -/
def size : Pattern → Nat
  | array elements => 1 + sizes elements
  | object fields => 1 + fieldSizes fields
  | select s => 2 + innerSize s
  | literal _ | typeTag _ | wildcard | not _ | when _ | set _ | map _ _ => 1

def sizes : List Pattern → Nat
  | [] => 0
  | p :: ps => p.size + sizes ps

def fieldSizes : List FieldPattern → Nat
  | [] => 0
  | ⟨_, p⟩ :: fs => p.size + fieldSizes fs

def innerSize : Select → Nat
  | ⟨_, _, none⟩ => 0
  | ⟨_, _, some p⟩ => p.size

end

theorem one_le_size (p : Pattern) : 1 ≤ p.size := by
  cases p <;> rw [size] <;> omega

theorem length_le_sizes (ps : List Pattern) : ps.length ≤ sizes ps := by
  induction ps with
  | nil => exact Nat.le_refl 0
  | cons p ps ih =>
    have hp := p.one_le_size
    rw [List.length_cons, sizes]
    omega

theorem size_le_sizes {ps : List Pattern} {p : Pattern} (h : p ∈ ps) : p.size ≤ sizes ps := by
  induction ps with
  | nil => cases h
  | cons q ps ih =>
    rw [sizes]
    cases h with
    | head => exact Nat.le_add_right _ _
    | tail _ h => exact Nat.le_trans (ih h) (Nat.le_add_left _ _)

end Pattern

namespace MatchNames

variable {names : MatchNames}

theorem size_of_memberPattern {name : String} {span : Span} {p : Pattern} (h : memberPattern name span = .ok p) :
    p.size = 1 := by
  grind [memberPattern, Pattern.size]

/-- A call that reads as a pattern of any size is a selection. -/
theorem size_of_callPattern {name : String} {span : Span} {args : List (Expr × Except MatchError Pattern)}
    {p : Pattern} (h : callPattern name span args = .ok p) : p.size = 1 ∨ selectPattern span args = .ok p := by
  simp only [callPattern, bind, Except.bind, pure, Except.pure] at h
  grind [Pattern.size]

theorem size_of_selectPattern {span : Span} {args : List Expr} {p : Pattern}
    (hargs : ∀ e ∈ args, ∀ p, names.pattern e = .ok p → p.size ≤ Depth.breadth e)
    (h : selectPattern span (names.argPatterns args) = .ok p) : p.size ≤ 2 + Depth.breadths args := by
  rcases args with _ | ⟨e₁, _ | ⟨e₂, _ | ⟨e₃, args⟩⟩⟩ <;>
    simp only [argPatterns, selectPattern, bind, Except.bind, pure, Except.pure, List.forall_mem_cons] at h hargs <;>
    grind [Pattern.size, Pattern.innerSize, Depth.breadths]

/-- A pattern is paid for by the breadth of what it was read from. -/
theorem size_le_breadth {e : Expr} {p : Pattern} (h : names.pattern e = .ok p) : p.size ≤ Depth.breadth e := by
  revert h p
  apply pattern.induct names (fun e => ∀ {p}, names.pattern e = .ok p → p.size ≤ Depth.breadth e)
    (fun args => ∀ e ∈ args, ∀ p, names.pattern e = .ok p → p.size ≤ Depth.breadth e)
    (fun span es => ∀ {ps}, names.elementPatterns span es = .ok ps → Pattern.sizes ps ≤ Depth.breadths es)
    (fun props => ∀ {fs}, names.fieldPatterns props = .ok fs → Pattern.fieldSizes fs ≤ Depth.propBreadths props)
  case case15 =>
    intro span callee args name hname hargs p h
    rw [pattern, hname] at h
    rw [Depth.breadth]
    rcases size_of_callPattern h with hsize | hselect
    · omega
    · exact size_of_selectPattern hargs hselect
  all_goals
    intros
    try simp only [pattern, elementPatterns, fieldPatterns, bind, Except.bind, pure, Except.pure] at *
    grind [Pattern.size, Pattern.sizes, Pattern.fieldSizes, Depth.breadth, Depth.breadths, Depth.propBreadths,
      size_of_memberPattern]

end MatchNames

/-! ## Tests and captures -/

section Tests

variable {known : Span → Bool} {style : AccessStyle} {target : Expr}

namespace AccessStyle

/-- A target that the code reads in many places counts once in an argument. -/
theorem depth_globalCall (known : Span → Bool) (style : AccessStyle) (object function : String) {arg : Expr} (h : Depth.breadth arg = 1) :
    Depth.expr known (style.globalCall object function arg) = Depth.link + 40 + Depth.expr known arg := by
  rw [globalCall, Depth.expr_call rfl]
  simp only [Depth.breadths, h, Depth.expr, Depth.exprs]
  omega

theorem depth_element (position : Nat) :
    Depth.expr known (style.element target position) = 4 + Depth.expr known target := by
  have := Depth.four_le_expr known target
  simp only [element, Depth.expr]
  omega

theorem depth_field (name : String) :
    Depth.expr known (style.field target name) = 4 + Depth.expr known target := by
  have := Depth.four_le_expr known target
  unfold field
  split
  · rfl
  · simp only [Depth.expr]
    omega

theorem breadth_element (position : Nat) : Depth.breadth (style.element target position) = 1 := rfl

theorem breadth_field (name : String) : Depth.breadth (style.field target name) = 1 := by
  unfold field
  split <;> rfl

end AccessStyle

theorem LiteralPattern.depth_test (known : Span → Bool) (style : AccessStyle) (h : Depth.breadth target = 1)
    (value : LiteralPattern) :
    Depth.expr known (value.test style target) ≤ Depth.link + 40 + Depth.expr known target := by
  have := Depth.four_le_expr known target
  cases value with
  | nan => exact Nat.le_of_eq (AccessStyle.depth_globalCall known style _ _ h)
  | _ =>
    simp only [test, test.equals, Depth.expr]
    omega

theorem TypeTag.depth_test (known : Span → Bool) (style : AccessStyle) (target : Expr) (tag : TypeTag) :
    Depth.expr known (tag.test style target) ≤ Depth.link + 40 + Depth.expr known target := by
  have := Depth.four_le_expr known target
  unfold test
  split <;>
  · simp only [Depth.expr]
    omega

namespace Pattern

variable (known style)

theorem depth_tests {target : Expr} (p : Pattern) (h : Depth.breadth target = 1) : ∀ t ∈ p.tests style target,
    Depth.expr known t ≤ Depth.link + 40 + Depth.expr known target + 4 * p.size := by
  revert h
  -- a component is one step deeper than what it is a component of
  apply tests.induct style
    (fun target p => Depth.breadth target = 1 → ∀ t ∈ p.tests style target,
      Depth.expr known t ≤ Depth.link + 40 + Depth.expr known target + 4 * p.size)
    (fun target s => Depth.breadth target = 1 → ∀ t ∈ innerTests style target s,
      Depth.expr known t ≤ Depth.link + 40 + Depth.expr known target + 4 * innerSize s)
    (fun target fs => ∀ t ∈ fieldTests style target fs,
      Depth.expr known t ≤ Depth.link + 44 + Depth.expr known target + 4 * fieldSizes fs)
    (fun target position ps => ∀ t ∈ elementTests style target position ps,
      Depth.expr known t ≤ Depth.link + 44 + Depth.expr known target + 4 * sizes ps)
  all_goals
    intros
    grind [tests, innerTests, fieldTests, elementTests, size, innerSize, fieldSizes, sizes, LiteralPattern.depth_test,
      TypeTag.depth_test, AccessStyle.depth_globalCall, AccessStyle.depth_element, AccessStyle.depth_field,
      AccessStyle.breadth_element, AccessStyle.breadth_field, AccessStyle.length, Depth.expr]

theorem length_tests (target : Expr) (p : Pattern) : (p.tests style target).length ≤ 2 * p.size := by
  apply tests.induct style (fun target p => (p.tests style target).length ≤ 2 * p.size)
    (fun target s => (innerTests style target s).length ≤ 2 * innerSize s)
    (fun target fs => (fieldTests style target fs).length ≤ 2 * fieldSizes fs)
    (fun target position ps => (elementTests style target position ps).length ≤ 2 * sizes ps)
  all_goals
    intros
    grind [tests, innerTests, fieldTests, elementTests, size, innerSize, fieldSizes, sizes]

/-- A captured value is read from the target, and is a component of it or the target itself. -/
theorem depth_captures {target : Expr} (p : Pattern) (h : Depth.breadth target = 1) : ∀ c ∈ p.captures style target,
    Depth.breadth c.value = 1 ∧ Depth.expr known c.value ≤ Depth.expr known target + 4 * p.size := by
  revert h
  apply captures.induct style
    (fun target p => Depth.breadth target = 1 → ∀ c ∈ p.captures style target,
      Depth.breadth c.value = 1 ∧ Depth.expr known c.value ≤ Depth.expr known target + 4 * p.size)
    (fun target s => Depth.breadth target = 1 → ∀ c ∈ innerCaptures style target s,
      Depth.breadth c.value = 1 ∧ Depth.expr known c.value ≤ Depth.expr known target + 4 * innerSize s)
    (fun target fs => ∀ c ∈ fieldCaptures style target fs,
      Depth.breadth c.value = 1 ∧ Depth.expr known c.value ≤ 4 + Depth.expr known target + 4 * fieldSizes fs)
    (fun target position ps => ∀ c ∈ elementCaptures style target position ps,
      Depth.breadth c.value = 1 ∧ Depth.expr known c.value ≤ 4 + Depth.expr known target + 4 * sizes ps)
  all_goals
    intros
    grind [captures, innerCaptures, fieldCaptures, elementCaptures, size, innerSize, fieldSizes, sizes,
      AccessStyle.depth_element, AccessStyle.depth_field, AccessStyle.breadth_element, AccessStyle.breadth_field]

theorem length_captures (target : Expr) (p : Pattern) : 2 * (p.captures style target).length ≤ p.size := by
  apply captures.induct style (fun target p => 2 * (p.captures style target).length ≤ p.size)
    (fun target s => 2 * (innerCaptures style target s).length ≤ innerSize s)
    (fun target fs => 2 * (fieldCaptures style target fs).length ≤ fieldSizes fs)
    (fun target position ps => 2 * (elementCaptures style target position ps).length ≤ sizes ps)
  all_goals
    intros
    grind [captures, innerCaptures, fieldCaptures, elementCaptures, size, innerSize, fieldSizes, sizes]

end Pattern

end Tests

/-! ## Conditions and selections -/

section Emission

variable {known : Span → Bool}

theorem Expr.depth_foldl (span : Span) (op : BinaryOp) : ∀ {es : List Expr} {first : Expr} {limit used : Nat},
    Depth.expr known first ≤ limit + used → (∀ e ∈ es, Depth.expr known e ≤ limit) →
    Depth.expr known (es.foldl (fun left right => .binary span op left right) first)
      ≤ limit + used + 4 * es.length
  | [], _, _, _, hfirst, _ => hfirst
  | e :: es, first, limit, used, hfirst, hes => by
    obtain ⟨he, hes⟩ := List.forall_mem_cons.mp hes
    have hnext : Depth.expr known (.binary span op first e) ≤ limit + (used + 4) := by
      rw [Depth.expr]
      omega
    have := Expr.depth_foldl span op hnext hes
    rw [List.length_cons, List.foldl_cons]
    omega

theorem Expr.depth_joined? {span : Span} {op : BinaryOp} {es : List Expr} {e : Expr} {limit : Nat}
    (h : Expr.joined? span op es = some e) (hes : ∀ t ∈ es, Depth.expr known t ≤ limit) :
    Depth.expr known e ≤ limit + 4 * es.length := by
  cases es with
  | nil => cases h
  | cons first es =>
    cases h
    obtain ⟨hfirst, hes⟩ := List.forall_mem_cons.mp hes
    have := Expr.depth_foldl span op (Nat.le_add_right_of_le (k := 0) hfirst) hes
    rw [List.length_cons]
    omega

/-- The fields of a selection with names, of which there are at most as many as captures. -/
theorem Capture.depth_fields (span : Span) {limit : Nat} (hlimit : 4 ≤ limit) : ∀ {captures : List Capture},
    (∀ c ∈ captures, Depth.breadth c.value = 1 ∧ Depth.expr known c.value ≤ limit) →
    Depth.propBreadths (captures.filterMap fun c =>
        c.name.map fun name => Property.init span (.named name) c.value false) ≤ captures.length ∧
      Depth.props known (captures.filterMap fun c =>
        c.name.map fun name => Property.init span (.named name) c.value false) ≤ 4 + limit
  | [], _ => ⟨Nat.le_refl 0, Nat.zero_le _⟩
  | ⟨name, value⟩ :: captures, h => by
    obtain ⟨⟨hbreadth, hdepth⟩, h⟩ := List.forall_mem_cons.mp h
    obtain ⟨hbreadths, hdepths⟩ := Capture.depth_fields span hlimit h
    cases name with
    | none =>
      rw [List.filterMap_cons_none rfl, List.length_cons]
      exact ⟨Nat.le_succ_of_le hbreadths, hdepths⟩
    | some name =>
      have hkey : Depth.propKey known (.named name) = 4 := by
        unfold PropKey.named
        split <;> rfl
      dsimp only at hbreadth hdepth
      simp only [List.filterMap_cons, Option.map_some, Depth.propBreadths, Depth.props, Depth.prop, hkey,
        List.length_cons]
      omega

theorem Capture.depth_value? {span : Span} {captures : List Capture} {e : Expr} {limit : Nat}
    (h : Capture.value? span captures = some e) (hlimit : 4 ≤ limit)
    (hcaptures : ∀ c ∈ captures, Depth.breadth c.value = 1 ∧ Depth.expr known c.value ≤ limit) :
    Depth.breadth e ≤ 1 + captures.length ∧ Depth.expr known e ≤ 8 + limit := by
  unfold Capture.value? at h
  split at h
  · cases h
  · cases h
    have := hcaptures _ List.mem_cons_self
    dsimp only at this
    rw [List.length_singleton]
    omega
  · cases h
    have := Capture.depth_fields span hlimit hcaptures
    rw [Depth.breadth, Depth.expr]
    omega

namespace Emission

variable {em : Emission}

/-- What the tests read is a name or a field of one. -/
structure Cheap (known : Span → Bool) (em : Emission) : Prop where
  depth : Depth.expr known em.subject ≤ 8
  breadth : Depth.breadth em.subject = 1

theorem depth_alternatives? (hem : em.Cheap known) {patterns : List Pattern} {e : Expr}
    (h : em.alternatives? patterns = some e) :
    Depth.expr known e ≤ Depth.link + 48 + 16 * Pattern.sizes patterns := by
  unfold alternatives? at h
  dsimp only at h
  split at h
  · cases h
  · have htests : ∀ t ∈ (patterns.map fun p => Expr.joined? em.span .and (p.tests em.style em.subject)).filterMap id,
        Depth.expr known t ≤ Depth.link + 48 + 12 * Pattern.sizes patterns := by
      intro t ht
      obtain ⟨p, hp, htests⟩ : ∃ p ∈ patterns,
          Expr.joined? em.span .and (p.tests em.style em.subject) = some t := by
        simpa using ht
      have htest := Expr.depth_joined? htests (p.depth_tests known em.style hem.breadth)
      have hlength := p.length_tests em.style em.subject
      have hsize := Pattern.size_le_sizes hp
      have hsubject := hem.depth
      omega
    have hjoined := Expr.depth_joined? h htests
    have hlength : ((patterns.map fun p => Expr.joined? em.span .and (p.tests em.style em.subject)).filterMap
        id).length ≤ patterns.length :=
      Nat.le_trans (List.length_filterMap_le _ _) (Nat.le_of_eq (List.length_map _))
    have hsizes := Pattern.length_le_sizes patterns
    omega

theorem depth_condition? (hem : em.Cheap known) {b : Branch} {e : Expr} (h : em.condition? b = some e) :
    Depth.expr known e ≤ Depth.link + 52 + 16 * Pattern.sizes b.patterns + Depth.expr? known b.guard := by
  rcases condition?_cases h with ⟨_, htest⟩ | ⟨guard, hguard, hcheck⟩
  · have := depth_alternatives? hem htest
    omega
  · have hcall := (Depth.expr_call_bounds known em.span guard [em.subject] false).2
    have hsubject := hem.depth
    rw [Depth.breadths, Depth.breadths, Depth.exprs, Depth.exprs, hem.breadth] at hcall
    rw [hguard, Depth.expr?]
    rcases hcheck with rfl | ⟨test, htest, rfl⟩
    · omega
    · have := depth_alternatives? hem htest
      rw [Depth.expr]
      omega

theorem depth_selection? (hem : em.Cheap known) {b : Branch} {e : Expr} (h : em.selection? b = some e) :
    2 * Depth.breadth e ≤ 2 + Pattern.sizes b.patterns ∧
      Depth.expr known e ≤ 16 + 4 * Pattern.sizes b.patterns := by
  have hcaptures : ∀ c ∈ b.patterns.flatMap (Pattern.captures em.style em.subject),
      Depth.breadth c.value = 1 ∧ Depth.expr known c.value ≤ 8 + 4 * Pattern.sizes b.patterns := by
    intro c hc
    obtain ⟨p, hp, hc⟩ := List.mem_flatMap.mp hc
    have hcapture := p.depth_captures known em.style hem.breadth c hc
    have hsize := Pattern.size_le_sizes hp
    have hsubject := hem.depth
    exact ⟨hcapture.1, by omega⟩
  have hlength : 2 * (b.patterns.flatMap (Pattern.captures em.style em.subject)).length
      ≤ Pattern.sizes b.patterns := by
    induction b.patterns with
    | nil => exact Nat.le_refl 0
    | cons p ps ih =>
      have hp := p.length_captures em.style em.subject
      rw [List.flatMap_cons, List.length_append, Pattern.sizes]
      omega
  have := Capture.depth_value? h (by omega) hcaptures
  omega

end Emission

/-! ## Handlers -/

/-- What the walk of a target needs, beside the value that it receives. -/
def Depth.target (known : Span → Bool) (target : Expr) : Nat :=
  if known target.span then 4 else Depth.expr known target

theorem Depth.four_le_target (known : Span → Bool) (target : Expr) : 4 ≤ Depth.target known target := by
  unfold Depth.target
  split
  · exact Nat.le_refl 4
  · exact Depth.four_le_expr known target

theorem Depth.target_ident (known : Span → Bool) (span : Span) (name : String) : Depth.target known (.ident span name) = 4 := ite_self 4

theorem Depth.stmt_assign (span assignSpan : Span) (op : AssignOp) (target value : Expr) :
    Depth.stmt known (.expr span (.assign assignSpan op target value))
      = 4 + (Depth.target known target + Depth.expr known value) := rfl

theorem Depth.four_le_stmt (known : Span → Bool) (s : Stmt) : 4 ≤ Depth.stmt known s := by
  cases s with
  | expr span e => cases e <;> exact Nat.le_add_right 4 _
  | breakTo | continueTo | importDecl | empty => exact Nat.le_refl 4
  | _ => exact Nat.le_add_right 4 _

namespace Sink

variable (sink : Sink) (span : Span)

/-- What the walk of the sink's target needs. -/
def depth (known : Span → Bool) : Sink → Nat
  | ret => 0
  | assign target _ => Depth.target known target

theorem depth_exit (known : Span → Bool) (value : Option Expr) :
    Depth.stmts known (sink.exit span value) ≤ 12 + sink.depth known + Depth.expr? known value := by
  cases sink with
  | ret =>
    simp only [exit, Depth.stmts_singleton, Depth.stmt]
    omega
  | assign target label =>
    rw [exit, Depth.stmts, Depth.stmts_singleton, Depth.stmt_assign, Depth.stmt, depth]
    cases value with
    | none =>
      simp only [Option.getD_none, Depth.expr, Depth.expr?]
      omega
    | some value =>
      simp only [Option.getD_some, Depth.expr?]
      omega

/-- A redirected return is a block at most; any other statement stays one statement. -/
theorem depth_redirect_of_single {sink : Sink} {span : Span} {s : Stmt} {limit : Nat} (hlimit : 4 ≤ limit)
    (h : Depth.stmt known (.single span (sink.redirect span s)) ≤ limit) :
    Depth.stmts known (sink.redirect span s) ≤ 4 + limit := by
  generalize sink.redirect span s = ss at h
  rcases ss with _ | ⟨s₁, _ | ⟨s₂, ss⟩⟩
  · rw [Depth.stmts]
    omega
  · rw [Depth.stmts_singleton]
    exact Nat.add_le_add_left h 4
  · change 4 + Depth.stmts known (s₁ :: s₂ :: ss) ≤ limit at h
    omega

variable (known)

/-- Redirecting returns makes room for the sink's target in them. -/
theorem depth_redirectAll (ss : List Stmt) :
    Depth.stmts known (sink.redirectAll span ss) ≤ 16 + sink.depth known + Depth.stmts known ss := by
  apply redirectAll.induct
    (fun s => Depth.stmt known (.single span (sink.redirect span s)) ≤ 16 + sink.depth known + Depth.stmt known s)
    (fun ss => Depth.stmts? known (sink.redirectFinally span ss) ≤ 16 + sink.depth known + Depth.stmts? known ss)
    (fun ss => Depth.stmts known (sink.redirectAll span ss) ≤ 16 + sink.depth known + Depth.stmts known ss)
    (fun c => Depth.catchClause? known (sink.redirectCatch span c)
      ≤ 16 + sink.depth known + Depth.catchClause? known c)
    (fun s => Depth.stmt? known (sink.redirectElse span s) ≤ 16 + sink.depth known + Depth.stmt? known s)
  case case1 =>
    intro _ value
    have hexit := sink.depth_exit span known value
    cases sink with
    | ret => exact Nat.le_add_left _ _
    | assign target label =>
      change 4 + Depth.stmts known (exit span value (.assign target label)) ≤ _ + (4 + _)
      omega
  case case9 =>
    intro s ss hs hss
    have hs := depth_redirect_of_single (by omega) hs
    rw [redirectAll, Depth.stmts]
    exact Depth.stmts_append_le (by omega) (by omega)
  case case13 =>
    rintro (_ | param) body hbody <;> simp only [redirectCatch, Depth.catchClause?] <;> omega
  all_goals
    intros
    simp_all only [redirect, redirectAll, redirectElse, redirectCatch, redirectFinally, Stmt.single, Depth.stmt,
      Depth.stmt?, Depth.stmts?, Depth.catchClause?]
    try omega

end Sink

/-- What the walk of the expression that a handler was read from needs. -/
def Handler.depth (known : Span → Bool) : Handler → Nat
  | .inline fn => 4 + Depth.func known fn
  | .callable callee => Depth.expr known callee

/-- What a branch is paid for, by the clause that it was read from. -/
def Branch.depth (known : Span → Bool) (b : Branch) : Nat :=
  32 * Pattern.sizes b.patterns + max (Depth.expr? known b.guard) (b.handler.depth known)

theorem Handler.depth_ofExpr (e : Expr) : (Handler.ofExpr e).depth known = Depth.expr known e := by
  cases e <;> rfl

namespace Emission

variable {em : Emission} {selection : Option Expr} {limit : Nat}

theorem depth_declare (span : Span) (kind : VarKind) (target : Binding) (init : Option Expr) :
    Depth.stmt known (declare span kind target init)
      = 4 + (Depth.binding known target + Depth.expr? known init) := by
  simp only [declare, Depth.stmt, Depth.declarators]
  omega

theorem depth_argument? (hselection : Depth.expr? known selection ≤ limit)
    (hsubject : Depth.expr known em.subject ≤ limit) (position : Nat) (target : Binding) :
    Depth.expr? known (em.argument? selection position target) ≤ limit := by
  have hfour := Depth.four_le_expr known em.subject
  unfold argument?
  split
  · exact hselection
  · exact hsubject
  · exact hsubject
  · split
    · exact Nat.zero_le _
    · exact Nat.le_trans hfour hsubject

theorem depth_parameters (hselection : Depth.expr? known selection ≤ limit)
    (hsubject : Depth.expr known em.subject ≤ limit) : ∀ (position : Nat) (ps : List Param),
    Depth.stmts known (em.parameters selection position ps) ≤ 8 + Depth.params known ps + limit
  | _, [] => by
    rw [parameters, Depth.stmts]
    omega
  | position, ⟨span, target, default, rest⟩ :: ps => by
    have hargument := depth_argument? hselection hsubject position target
    have hps := depth_parameters hselection hsubject (position + 1) ps
    rw [parameters, Depth.stmts, depth_declare, Depth.params]
    dsimp only
    omega

theorem depth_body (known : Span → Bool) (em : Emission) (body : FuncBody) :
    Depth.stmts known (em.body body) ≤ 16 + em.sink.depth known + Depth.funcBody known body := by
  cases body with
  | expr value =>
    have hexit := em.sink.depth_exit em.span known (some value)
    rw [Depth.expr?] at hexit
    rw [body, Depth.funcBody]
    omega
  | block ss =>
    have hexit := em.sink.depth_exit em.span known none
    have hredirect := em.sink.depth_redirectAll known em.span ss
    have hss := Depth.four_le_stmts known ss
    rw [Depth.expr?] at hexit
    rw [body, Depth.funcBody]
    apply Depth.stmts_append_le
    · split
      · exact Nat.le_add_left _ _
      · rw [Sink.getD_redirectAll?]
        exact hredirect
    · split
      · omega
      · rw [Depth.stmts]
        omega

/-- Running a handler needs room for its target, for what it is given and for itself. -/
theorem depth_invoke (em : Emission) (selection : Option Expr) (hselection : Depth.expr? known selection ≤ limit)
    (hsubject : Depth.expr known em.subject ≤ limit) (span : Span) (targetNames : List String) (handler : Handler) :
    Depth.stmt known (em.invoke selection (handler.plan span targetNames))
      ≤ 20 + em.sink.depth known + Depth.link + 32 * Depth.breadths (selection.toList ++ [em.subject])
        + handler.depth known + limit := by
  have hargs : Depth.exprs known (selection.toList ++ [em.subject]) ≤ limit := by
    rw [Depth.exprs_le_iff]
    intro e he
    rcases List.mem_append.mp he with he | he
    · rw [Option.mem_toList.mp he] at hselection
      exact hselection
    · rwa [List.mem_singleton.mp he]
  have hcalled : ∀ callee : Expr, Depth.stmt known (em.invoke selection (.called callee))
      ≤ 16 + em.sink.depth known + Depth.link + 32 * Depth.breadths (selection.toList ++ [em.subject])
        + Depth.expr known callee + limit := by
    intro callee
    have hcall := (Depth.expr_call_bounds known em.span callee (selection.toList ++ [em.subject]) false).2
    have hexit := em.sink.depth_exit em.span known
      (some (.call em.span callee (selection.toList ++ [em.subject]) false))
    rw [Depth.expr?] at hexit
    rw [invoke, Depth.stmt]
    omega
  cases handler with
  | callable callee =>
    have := hcalled callee
    rw [Handler.plan, Handler.depth]
    omega
  | inline fn =>
    rw [Handler.plan, Handler.depth]
    split
    · have := hcalled (.func span fn)
      rw [Depth.expr] at this
      omega
    · obtain ⟨_, _, _, params, body, _, _⟩ := fn
      have hparams := depth_parameters hselection hsubject 0 params
      have hbody := em.depth_body known body
      have hstmts : Depth.stmts known (em.parameters selection 0 params ++ em.body body)
          ≤ 16 + em.sink.depth known + max (Depth.params known params) (Depth.funcBody known body) + limit :=
        Depth.stmts_append_le (by omega) (by omega)
      rw [invoke, Depth.stmt, Depth.func]
      dsimp only
      omega

/-- Each of the statements that branches become needs no more than its branch is paid for. -/
theorem depth_branch (hem : em.Cheap known) (span : Span) (targetNames : List String) (b : Branch) :
    Depth.stmt known (em.invoke (em.selection? b) (b.handler.plan span targetNames))
      ≤ Depth.link + 100 + em.sink.depth known + b.depth known := by
  have hsubject := hem.depth
  have hselection : Depth.expr? known (em.selection? b) ≤ 16 + 4 * Pattern.sizes b.patterns ∧
      2 * Depth.breadths ((em.selection? b).toList ++ [em.subject]) ≤ 4 + Pattern.sizes b.patterns := by
    cases h : em.selection? b with
    | none =>
      rw [Option.toList_none, List.nil_append, Depth.breadths, Depth.breadths, hem.breadth, Depth.expr?]
      omega
    | some e =>
      have := depth_selection? hem h
      simp only [Option.toList_some, List.singleton_append, Depth.breadths, hem.breadth, Depth.expr?]
      omega
  have := em.depth_invoke _ hselection.1 (Nat.le_trans hsubject (by omega)) span targetNames b.handler
  rw [Branch.depth]
  omega

theorem depth_branches (hem : em.Cheap known) {span : Span} {targetNames : List String} :
    ∀ {bs : List Branch} {stmts : List Stmt} {always : Bool},
      (∀ b ∈ bs, Depth.link + 104 + em.sink.depth known + b.depth known ≤ limit) →
      em.branches (bs.zip (bs.map (·.handler.plan span targetNames))) = .ok (stmts, always) →
      ∀ s ∈ stmts, Depth.stmt known s ≤ limit
  | [], _, _, _, h => by
    cases h
    exact nofun
  | b :: bs, stmts, always, hlimit, h => by
    obtain ⟨hb, hbs⟩ := List.forall_mem_cons.mp hlimit
    have hblock := depth_branch hem span targetNames b
    rw [List.map_cons, List.zip_cons_cons] at h
    rcases (branches_cons h).2 with ⟨_, rfl, _⟩ | ⟨test, others, htest, hothers, rfl⟩
    · rw [List.forall_mem_singleton]
      omega
    · refine List.forall_mem_cons.mpr ⟨?_, depth_branches hem hbs hothers⟩
      have := depth_condition? hem htest
      rw [Branch.depth] at hb hblock
      rw [Depth.stmt, Depth.stmt?]
      omega

theorem depth_noMatch (hem : em.Cheap known) (shown error : String) :
    ∀ s ∈ em.noMatch shown error, Depth.stmt known s ≤ Depth.link + 80 := by
  have hcall := AccessStyle.depth_globalCall known em.style "JSON" "stringify" hem.breadth
  have hsubject := hem.depth
  have hshown := Depth.target_ident known em.span shown
  simp only [noMatch, List.forall_mem_cons, depth_declare]
  refine ⟨?_, ?_, ?_, nofun⟩
  · simp only [Depth.binding, Depth.expr?]
    omega
  · simp only [Depth.stmt, Depth.catchClause?, Depth.stmts?, Depth.binding]
    rw [Depth.stmts_singleton, Depth.stmts_singleton, Depth.stmt_assign, Depth.stmt_assign]
    omega
  · simp only [Depth.stmt, Depth.expr, Depth.exprs]
    omega

theorem depth_rest (hem : em.Cheap known) {m : MatchExpr}
    (hfallback : ∀ handler ∈ m.fallback, Depth.link + 80 + em.sink.depth known + handler.depth known ≤ limit)
    (hlimit : Depth.link + 80 ≤ limit) (shown error : String) :
    ∀ s ∈ em.rest m shown error, Depth.stmt known s ≤ limit := by
  unfold rest
  cases h : m.fallback with
  | some handler =>
    have hhandler := hfallback handler h
    have hinvoke := em.depth_invoke none (Nat.zero_le _) hem.depth em.span em.sink.targetNames handler
    rw [Option.toList_none, List.nil_append, Depth.breadths, Depth.breadths, hem.breadth] at hinvoke
    simp only [Option.map_some, List.forall_mem_singleton]
    omega
  | none =>
    simp only [Option.map_none]
    split
    · exact nofun
    · exact fun s hs => Nat.le_trans (depth_noMatch hem shown error s hs) hlimit

end Emission

/-! ## Chains -/

theorem Depth.breadths_append (es es' : List Expr) :
    Depth.breadths (es ++ es') = Depth.breadths es + Depth.breadths es' := by
  induction es <;> simp_all [Depth.breadths, Nat.add_assoc]

/-- A chain pays for each of its calls, and once more for each call's arguments. -/
theorem Chain.Spells.depth {matcher : String} {calls : List Call} {e : Expr} (h : Chain.Spells matcher calls e)
    (known : Span → Bool) :
    Depth.link * calls.length ≤ Depth.expr known e ∧ ∀ c ∈ calls,
      Depth.link * calls.length + 32 * Depth.breadths c.args + Depth.exprs known c.args ≤ Depth.expr known e := by
  induction h with
  | root span s args =>
    rw [Depth.expr_call rfl, List.length_singleton, List.forall_mem_singleton]
    dsimp only
    omega
  | link span s property args _ ih =>
    rw [Depth.expr_call rfl, Depth.expr, List.length_append, List.length_singleton, Nat.mul_add,
      List.forall_mem_append, List.forall_mem_singleton]
    refine ⟨by omega, fun c hc => ?_, by dsimp only; omega⟩
    have := ih.2 c hc
    omega

/-- The parts of a match expression are paid for within a limit, with a link to spare. -/
structure MatchExpr.Paid (known : Span → Bool) (limit : Nat) (m : MatchExpr) : Prop where
  subject : 2 * Depth.link + Depth.expr known m.subject ≤ limit
  branches : ∀ b ∈ m.branches, 2 * Depth.link + b.depth known ≤ limit
  fallback : ∀ handler ∈ m.fallback, 2 * Depth.link + handler.depth known ≤ limit

namespace MatchNames

theorem sizes_le_of_forall₂ {names : MatchNames} {es : List Expr} {ps : List Pattern}
    (h : List.Forall₂ (fun e p => names.pattern e = .ok p) es ps) : Pattern.sizes ps ≤ Depth.breadths es := by
  induction h with
  | nil => exact Nat.le_refl 0
  | cons hp _ ih =>
    rw [Pattern.sizes, Depth.breadths]
    exact Nat.add_le_add (size_le_breadth hp) ih

/-- A branch is paid for by the arguments of its clause. -/
theorem Clause.depth_le {names : MatchNames} {c : Call} {b : Branch} (h : names.Clause c b) (known : Span → Bool) :
    b.depth known ≤ 32 * Depth.breadths c.args + Depth.exprs known c.args := by
  obtain ⟨patterns, handler, hargs, hhandler, hpatterns⟩ := h.arguments
  have hsizes := sizes_le_of_forall₂ hpatterns
  have hall := Depth.exprs_le_iff.mp (Nat.le_refl (Depth.exprs known c.args))
  have hguard : Depth.expr? known b.guard ≤ Depth.exprs known c.args := by
    cases hguard : b.guard with
    | none => exact Nat.zero_le _
    | some guard => exact hall guard (by simp [hargs, hguard])
  have hdepth : Depth.expr known handler ≤ Depth.exprs known c.args := hall handler (by simp [hargs])
  have hbreadths : Depth.breadths patterns ≤ Depth.breadths c.args := by
    rw [hargs, Depth.breadths_append, Depth.breadths_append]
    omega
  rw [Branch.depth, hhandler, Handler.depth_ofExpr]
  omega

/-- A chain pays for everything that is read from it. -/
theorem paid_of_read {names : MatchNames} {e : Expr} {m : MatchExpr} (h : names.read e = .ok (some m)) :
    m.Paid known (Depth.expr known e) := by
  obtain ⟨root, operations, hspells, hne, hroot, _, hadds⟩ := read_operations h
  obtain ⟨_, hcalls⟩ := hspells.depth known
  have hlength : 1 ≤ operations.length := List.length_pos_iff.mpr hne
  rw [List.length_cons, Nat.mul_add, Nat.mul_one] at hcalls
  have hlinks : Depth.link ≤ Depth.link * operations.length := Nat.le_mul_of_pos_right _ hlength
  refine ⟨?_, fun b hb => ?_, fun handler hhandler => ?_⟩
  · have := hcalls root List.mem_cons_self
    rw [hroot, Depth.exprs] at this
    omega
  · obtain ⟨bs, hbs, hclauses, _⟩ := hadds.branches
    rw [List.nil_append] at hbs
    rw [hbs] at hb
    obtain ⟨c, hc, hclause⟩ := exists_of_forall₂ hclauses.flip hb
    have hpays := hcalls c (List.mem_cons_of_mem _ (List.mem_filter.mp hc).1)
    have := hclause.depth_le known
    omega
  · obtain ⟨c, hc, e, hargs, rfl⟩ := hadds.fallback handler hhandler
    have hpays := hcalls c (List.mem_cons_of_mem _ hc)
    rw [hargs, Depth.exprs] at hpays
    rw [Handler.depth_ofExpr]
    omega

end MatchNames

/-! ## Whole expressions -/

namespace MatchExpr

variable {m : MatchExpr} {options : GenerateOptions} {cache : Option String} {em : Emission} {body : List Stmt}
  {limit : Nat}

theorem Assembled.cheapSubject (h : m.Assembled options cache em body) (known : Span → Bool) : em.Cheap known := by
  have hsubject := h.subject
  cases cache with
  | some name => exact ⟨by rw [hsubject]; exact Nat.le_add_right 4 4, by rw [hsubject]; rfl⟩
  | none =>
    have hcheap := h.cheap rfl
    rw [Option.map_none, Option.getD_none] at hsubject
    unfold CostModel.isCheap at hcheap
    split at hcheap
    · rename_i hident
      exact ⟨by rw [hsubject, hident]; exact Nat.le_add_right 4 4, by rw [hsubject, hident]; rfl⟩
    · rename_i hmember
      exact ⟨by rw [hsubject, hmember]; exact Nat.le_refl 8, by rw [hsubject, hmember]; rfl⟩
    · cases hcheap

/-- The body of the code leaves room for what is around it. -/
theorem Assembled.depth_body (h : m.Assembled options cache em body) (hpaid : m.Paid known limit) :
    Depth.stmts known body + 148 ≤ em.sink.depth known + limit := by
  have hem := h.cheapSubject known
  have hsubject := hpaid.subject
  obtain ⟨stmts, always, shown, error, hbranches, rfl⟩ := h.body
  have hstmts : ∀ s ∈ stmts, Depth.stmt known s ≤ em.sink.depth known + limit - 152 := by
    refine Emission.depth_branches hem (fun b hb => ?_) hbranches
    have := hpaid.branches b hb
    rw [Depth.link] at this ⊢
    omega
  have hrest : ∀ s ∈ em.rest m shown error, Depth.stmt known s ≤ em.sink.depth known + limit - 152 := by
    rw [Depth.link] at hsubject
    refine Emission.depth_rest hem (fun handler hhandler => ?_) (by rw [Depth.link]; omega) shown error
    have := hpaid.fallback handler hhandler
    rw [Depth.link] at this ⊢
    omega
  rw [Depth.link] at hsubject
  have hbody : Depth.stmts known (stmts ++ if always then [] else em.rest m shown error)
      ≤ em.sink.depth known + limit - 148 := by
    rw [Depth.stmts_le_iff, List.forall_mem_append]
    refine ⟨by omega, fun s hs => ?_, fun s hs => ?_⟩
    · have := hstmts s hs
      omega
    · split at hs
      · cases hs
      · have := hrest s hs
        omega
  omega

/-- The code that takes the place of a value needs no more depth than what pays for it. -/
theorem depth_generate_value {ordinal : Nat} {code : Expr} (h : m.generate options .value ordinal = .ok (.expr code))
    (hpaid : m.Paid known limit) : Depth.expr known code ≤ limit := by
  obtain ⟨_, _, cache, em, body, hassembled, hsink, hcode⟩ := generate_value_shape h
  have hbody := hassembled.depth_body hpaid
  have hsubject := hpaid.subject
  rw [hsink, Sink.depth] at hbody
  rw [Depth.link] at hsubject
  cases hcode
  cases cache with
  | none =>
    simp only [Emission.callAtOnce, Option.map_none, Option.toList_none, List.map_nil, Depth.expr, Depth.func,
      Depth.params, Depth.funcBody, Depth.exprs]
    omega
  | some name =>
    simp only [Emission.callAtOnce, Option.map_some, Option.toList_some, List.map_cons, List.map_nil, Depth.expr,
      Depth.func, Depth.params, Depth.funcBody, Depth.exprs, Depth.binding, Depth.expr?]
    omega

end MatchExpr

/-- What the walk of a placement's target needs, beside the value that it receives. -/
def Placement.depth (known : Span → Bool) : Placement → Nat
  | value => 0
  | declaration .. => 4
  | destructuring _ target => Depth.binding known target
  | assignment target => Depth.target known target

namespace MatchExpr

variable {m : MatchExpr} {options : GenerateOptions} {limit : Nat}

theorem depth_block {em : Emission} {cache : Option String} {body : List Stmt}
    (h : m.Assembled options cache em body) (hpaid : m.Paid known limit) (label : String) :
    Depth.stmt known (m.block label cache body) + 140 ≤ em.sink.depth known + limit := by
  have hbody := h.depth_body hpaid
  have hsubject := hpaid.subject
  rw [Depth.link] at hsubject
  have hcached : Depth.stmts known (cache.toList.map fun name =>
      Emission.declare m.span .constVar (.ident m.span name) (some m.subject))
      ≤ em.sink.depth known + limit - 148 := by
    cases cache with
    | none =>
      rw [Option.toList_none, List.map_nil, Depth.stmts]
      omega
    | some name =>
      rw [Option.toList_some, List.map_singleton, Depth.stmts_singleton, Emission.depth_declare, Depth.binding,
        Depth.expr?]
      omega
  have hstmts := Depth.stmts_append_le hcached (Nat.le_sub_of_add_le hbody)
  rw [block, Depth.stmt, Depth.stmt]
  omega

/-- The code that takes the place of a statement needs no more depth than its target and what pays for the
    code. -/
theorem depth_generate_statement {placement : Placement} {ordinal : Nat} {code : List Stmt}
    (hstatement : placement.isStatement = true) (h : m.generate options placement ordinal = .ok (.stmts code))
    (hpaid : m.Paid known limit) : Depth.stmts known code ≤ placement.depth known + limit := by
  obtain ⟨_, cache, em, body, target, label, temp, hassembled, hsink, htarget, hcode⟩ :=
    generate_statement_shape hstatement h
  have hblock := depth_block hassembled hpaid label
  have hsubject := hpaid.subject
  rw [hsink, Sink.depth] at hblock
  rw [Depth.link] at hsubject
  have hrebind : ∀ (name : String) (kind : VarKind) (b : Binding), Depth.target known target = 4 →
      Depth.stmts known (Emission.place.rebind m.span (m.block label cache body) name kind b)
        ≤ Depth.binding known b + limit := by
    intro name kind b h
    simp only [Emission.place.rebind, Depth.stmts, Emission.depth_declare, Depth.binding, Depth.expr?, Depth.expr]
    omega
  cases hcode
  cases placement with
  | value => cases hstatement
  | declaration kind name =>
    cases htarget
    rw [Depth.target_ident] at hblock hrebind
    cases temp with
    | none =>
      simp only [Emission.place, Depth.stmts, Emission.depth_declare, Depth.binding, Depth.expr?, Placement.depth]
      omega
    | some temp => exact hrebind temp kind (.ident m.span name) rfl
  | destructuring kind b =>
    cases temp with
    | none => cases htarget
    | some temp =>
      cases htarget
      exact hrebind temp kind b (Depth.target_ident known _ _)
  | assignment target =>
    cases htarget
    rw [Emission.place, Depth.stmts_singleton, Placement.depth]
    omega

end MatchExpr

end Emission

/-! ## Known targets -/

namespace Depth

variable {known known' : Span → Bool}

theorem target_le_of_expr_le (h : ∀ span, known span = true → known' span = true) {e : Expr}
    (he : expr known' e ≤ expr known e) : target known' e ≤ target known e := by
  have hfour := four_le_expr known e
  unfold target
  split
  · split
    · exact Nat.le_refl 4
    · exact hfour
  · rename_i hunknown
    rw [if_neg fun hknown => hunknown (h _ hknown)]
    exact he

/-- Knowing more targets never makes a tree deeper. -/
theorem expr_anti (h : ∀ span, known span = true → known' span = true) (e : Expr) : expr known' e ≤ expr known e := by
  apply expr.induct (fun e => expr known' e ≤ expr known e) (fun fn => func known' fn ≤ func known fn)
    (fun body => funcBody known' body ≤ funcBody known body) (fun ss => stmts known' ss ≤ stmts known ss)
    (fun s => stmt known' s ≤ stmt known s) (fun ss => stmts? known' ss ≤ stmts? known ss)
    (fun c => catchClause? known' c ≤ catchClause? known c) (fun b => binding known' b ≤ binding known b)
    (fun ps => bindingProps known' ps ≤ bindingProps known ps) (fun p => bindingProp known' p ≤ bindingProp known p)
    (fun e => expr? known' e ≤ expr? known e) (fun key => propKey known' key ≤ propKey known key)
    (fun es => elems known' es ≤ elems known es) (fun e => elem known' e ≤ elem known e)
    (fun s => stmt? known' s ≤ stmt? known s) (fun ds => declarators known' ds ≤ declarators known ds)
    (fun ps => params known' ps ≤ params known ps) (fun ps => props known' ps ≤ props known ps)
    (fun p => prop known' p ≤ prop known p) (fun es => exprs known' es ≤ exprs known es)
  -- only an assigned target is looked up among those that are known
  case case37 =>
    intro span assignSpan op target value htarget hvalue
    have htarget := target_le_of_expr_le h htarget
    rw [stmt_assign, stmt_assign]
    omega
  all_goals
    intros
    simp_all only [expr, exprs, expr?, props, prop, propKey, func, params, funcBody, binding, elems, elem,
      bindingProps, bindingProp, stmt, stmts, stmt?, stmts?, declarators, catchClause?]
    try omega

end Depth

end MatchChain
