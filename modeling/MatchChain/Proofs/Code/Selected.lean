import MatchChain.Proofs.Code.Arguments
import MatchChain.Proofs.Match.Clauses
import MatchChain.Proofs.Match.Components

/-!
# Selected components

The expressions that generated code hands over are, in order, those of the selections of a pattern, and each
evaluates to the component at the place of its selection, whatever value the subject has. So a handler
receives nothing, a bare component, or a record with a component under each name.

As with conditions, an expression is evaluated after others that can have made functions, so `Finds` speaks
of all machines that differ in these from the one where the subject was bound.
-/

set_option autoImplicit false

namespace MatchChain

open Eval Outcome

namespace Eval

/-- A read finds the component. -/
theorem isIn_afterRead (v : Value) (key : String) (m : Machine) :
    (m.heap.component v key).IsIn (m.afterRead v key).heap (m.heap.part v key) := by
  unfold Heap.component Machine.afterRead
  cases hv : v.method? key with
  | some fn => exact ⟨m.heap.size, m.heap.part_of_method? hv, by simp [Machine.allocated, Heap.alloc, Heap.size]⟩
  | none => rfl

/-- In every machine that `m` can have become, the expression gives the component. -/
def Finds (m : Machine) (e : Expr) (c : Component) : Prop :=
  ∀ m₁, m.Spawned m₁ → ∃ w m₂, m₁.Spawned m₂ ∧ c.IsIn m₂.heap w ∧ limit (expr · e) m₁ = some (.ok w, m₂)

namespace Finds

variable {m : Machine} {e : Expr} {c : Component} {style : AccessStyle}

theorem ident {name : String} {v : Value} (h : m.lookup? name = some v) (span : Span) :
    Finds m (.ident span name) (.value v) := by
  refine fun m₁ hs => ⟨v, m₁, .refl _, rfl, limit_expr_ident ?_ span⟩
  rw [hs.lookup?, h]

/-- A longer path finds the component one step further. -/
theorem step (h : Finds m e c) {span : Span} {s : Step} {e' : Expr} (he : IsAccess span e s.key true e') :
    Finds m e' (c.step m.heap s) := by
  intro m₁ hs
  obtain ⟨w, m₂, hs₂, hw, hrun⟩ := h m₁ hs
  have hu := isIn_afterRead w s.key m₂
  refine ⟨m₂.heap.part w s.key, m₂.afterRead w s.key, hs₂.trans (.afterRead m₂ w s.key), ?_, ?_⟩
  · cases c with
    | value v =>
      -- the machine may have more functions by now, but none of them is in the value
      obtain rfl : w = v := hw
      rwa [(hs.trans hs₂).heap.component] at hu
    | method fn receiver =>
      obtain ⟨cell, rfl, _⟩ := hw
      rwa [Heap.component_function] at hu
  · rw [he.limit_expr, hrun]
    simp only [Option.bind_some, andThen_ok, run_part]
    rfl

theorem field (h : Finds m e c) (hsafe : style.nullSafe = true) (name : String) :
    Finds m (style.field e name) (c.step m.heap (.field name)) :=
  h.step (s := .field name) (hsafe ▸ style.isAccess_field e name)

theorem element (h : Finds m e c) (hsafe : style.nullSafe = true) (i : Nat) :
    Finds m (style.element e i) (c.step m.heap (.element i)) :=
  h.step (s := .element i) (hsafe ▸ style.isAccess_element e i)

end Finds

end Eval

/-- The component at an element of an array is the item at its position. -/
theorem Component.follow_element (h : Heap) (cell : Nat) {i : Nat} (hi : i < 2 ^ 53) (path : List Step) :
    (value (.array cell)).follow h (.element i :: path)
      = (value (((h.items cell)[i]?).getD .undefined)).follow h path := by
  have hindex : Text.index? (Step.element i).key = some i := Text.index?_text_ofNat hi
  have hmethod : Value.method? (.array cell) (Step.element i).key = none := by
    simp [Value.method?, hindex]
  have hitem : h.component (.array cell) (Step.element i).key = value (((h.items cell)[i]?).getD .undefined) := by
    rw [Heap.component, hmethod]
    exact congrArg value (part_element hi)
  exact congrArg (Component.follow h · path) hitem

/-- The component at a field of an object is the value under its name. -/
theorem Component.follow_field (h : Heap) (cell : Nat) (name : String) (path : List Step) :
    (value (.object cell)).follow h (.field name :: path)
      = (value (((h.fields cell).get? name).getD .undefined)).follow h path :=
  congrArg (Component.follow h · path) (h.component_object cell name)

/-- A capture has the name of a selection and finds the component at its place. -/
def Capture.Finds (m : Machine) (subject : Component) (c : Capture) (s : PlacedSelect) : Prop :=
  c.name = s.select.name ∧ Eval.Finds m c.value (subject.follow m.heap s.path)

namespace Pattern

variable {m : Machine} {subject : Component} {style : AccessStyle}

mutual

/-- A pattern's captures find the components that it selects. -/
theorem captures_find (hsafe : style.nullSafe = true) : ∀ (p : Pattern) {e : Expr} {path : List Step},
    Eval.Finds m e (subject.follow m.heap path) →
      List.Forall₂ (Capture.Finds m subject) (p.captures style e) (p.placed path)
  | literal _, _, _, _ | typeTag _, _, _, _ | wildcard, _, _, _ | not _, _, _, _ | when _, _, _, _
  | set _, _, _, _ | map _ _, _, _, _ => by
    rw [captures, placed]
    exact .nil
  | array elements, e, path, h => by
    rw [captures, placed]
    exact elementCaptures_find hsafe elements 0 h
  | object fields, e, path, h => by
    rw [captures, placed]
    exact fieldCaptures_find hsafe fields h
  | select s, e, path, h => by
    rw [captures, placed]
    exact .cons ⟨rfl, h⟩ (innerCaptures_find hsafe s h)

theorem elementCaptures_find (hsafe : style.nullSafe = true) :
    ∀ (ps : List Pattern) (i : Nat) {e : Expr} {path : List Step}, Eval.Finds m e (subject.follow m.heap path) →
      List.Forall₂ (Capture.Finds m subject) (elementCaptures style e i ps) (elementPlaced path i ps)
  | [], i, e, path, h => by
    rw [elementCaptures, elementPlaced]
    exact .nil
  | p :: ps, i, e, path, h => by
    have helement := h.element hsafe i
    rw [← Component.follow_concat] at helement
    rw [elementCaptures, elementPlaced]
    exact List.rel_append (captures_find hsafe p helement) (elementCaptures_find hsafe ps (i + 1) h)

theorem fieldCaptures_find (hsafe : style.nullSafe = true) :
    ∀ (fs : List FieldPattern) {e : Expr} {path : List Step}, Eval.Finds m e (subject.follow m.heap path) →
      List.Forall₂ (Capture.Finds m subject) (fieldCaptures style e fs) (fieldPlaced path fs)
  | [], e, path, h => by
    rw [fieldCaptures, fieldPlaced]
    exact .nil
  | ⟨name, p⟩ :: fs, e, path, h => by
    have hfield := h.field hsafe name
    rw [← Component.follow_concat] at hfield
    rw [fieldCaptures, fieldPlaced]
    exact List.rel_append (captures_find hsafe p hfield) (fieldCaptures_find hsafe fs h)

theorem innerCaptures_find (hsafe : style.nullSafe = true) :
    ∀ (s : Select) {e : Expr} {path : List Step}, Eval.Finds m e (subject.follow m.heap path) →
      List.Forall₂ (Capture.Finds m subject) (innerCaptures style e s) (innerPlaced path s)
  | ⟨_, _, none⟩, e, path, h => by
    rw [innerCaptures, innerPlaced]
    exact .nil
  | ⟨_, _, some p⟩, e, path, h => by
    rw [innerCaptures, innerPlaced]
    exact captures_find hsafe p h

end

end Pattern

theorem Branch.captures_find {m : Machine} {subject : Component} {style : AccessStyle} (hsafe : style.nullSafe = true)
    (b : Branch) {e : Expr} (h : Eval.Finds m e subject) :
    List.Forall₂ (Capture.Finds m subject) (b.patterns.flatMap (Pattern.captures style e)) b.placed := by
  unfold placed
  induction b.patterns with
  | nil => exact .nil
  | cons p ps ih =>
    rw [List.flatMap_cons, List.flatMap_cons]
    have hp : List.Forall₂ (Capture.Finds m subject) (p.captures style e) (p.placed []) := p.captures_find hsafe h
    exact List.rel_append hp ih

/-! ## What is handed over -/

theorem Fields.set_of_notMem {key : String} (v : Value) : ∀ {fs : Fields}, key ∉ fs.map (·.1) →
    fs.set key v = fs ++ [(key, v)]
  | [], _ => rfl
  | (k, u) :: fs, h => by
    rw [List.map_cons, List.mem_cons, not_or] at h
    rw [set, if_neg (by simpa using Ne.symm h.1), set_of_notMem v h.2]
    rfl

/-- In every machine that `m` can have become, the expression gives a new record with the labels as its keys,
    in order, and under each the component that a selection selects. -/
def Eval.FindsRecord (m : Machine) (subject : Component) (labels : List String) (selects : List PlacedSelect)
    (e : Expr) : Prop :=
  ∀ m₁, m.Spawned m₁ → ∃ ws m₂, m₁.Spawned m₂ ∧
    List.Forall₂ (fun s w => (subject.follow m.heap s.path).IsIn m₂.heap w) selects ws ∧
    limit (expr · e) m₁ = some (.ok (.object m₂.heap.size), m₂.allocated (.fields (labels.zip ws)))

/-- What an expression hands over for selections: nothing without any, the component of a single one without
    a name, and otherwise a record with the names as its keys. -/
inductive Eval.Hands (m : Machine) (subject : Component) : List PlacedSelect → Option Expr → Prop where
  | nothing : Hands m subject [] none
  | bare {s : PlacedSelect} {e : Expr} : s.select.name = none → Finds m e (subject.follow m.heap s.path) →
      Hands m subject [s] (some e)
  | record {selects : List PlacedSelect} {labels : List String} {e : Expr} : labels ≠ [] → labels.Nodup →
      selects.map (·.select.name) = labels.map some → FindsRecord m subject labels selects e →
      Hands m subject selects (some e)

/-- For selections with names, a record is handed over. -/
theorem Eval.Hands.findsRecord {m : Machine} {subject : Component} {selects : List PlacedSelect} {value? : Option Expr}
    (h : Hands m subject selects value?) {labels : List String} (hne : labels ≠ [])
    (hlabels : selects.map (·.select.name) = labels.map some) :
    ∃ e, value? = some e ∧ FindsRecord m subject labels selects e := by
  cases h with
  | nothing => exact absurd (List.map_eq_nil_iff.mp hlabels.symm) hne
  | bare hname _ =>
    cases labels with
    | nil => cases hlabels
    | cons label labels =>
      rw [List.map_singleton, hname] at hlabels
      cases hlabels
  | record _ _ hlabels' hrecord =>
    rw [hlabels] at hlabels'
    rw [List.map_injective_iff.mpr (Option.some_injective String) hlabels']
    exact ⟨_, rfl, hrecord⟩

namespace Capture

variable {m : Machine} {subject : Component} {cs : List Capture} {selects : List PlacedSelect}

/-- The properties of named captures add a field each, in order, after the fields before them. -/
theorem limit_properties_find (span : Span) (h : List.Forall₂ (Capture.Finds m subject) cs selects) :
    ∀ {labels : List String} (fs : Fields) {m₁ : Machine}, selects.map (·.select.name) = labels.map some →
      (fs.map (·.1) ++ labels).Nodup → m.Spawned m₁ → ∃ ws m₂, m₁.Spawned m₂ ∧
        List.Forall₂ (fun s w => (subject.follow m.heap s.path).IsIn m₂.heap w) selects ws ∧
        limit (fun n => (properties span cs).foldlM (prop n) fs) m₁ = some (.ok (fs ++ labels.zip ws), m₂) := by
  induction h with
  | nil =>
    intro labels fs m₁ hlabels _ _
    obtain rfl := List.map_eq_nil_iff.mp hlabels.symm
    refine ⟨[], m₁, .refl _, .nil, ?_⟩
    rw [List.zip_nil_left, List.append_nil]
    exact limit_const _ m₁
  | @cons c s cs selects hcs _ ih =>
    -- the name is not among the fields yet, so its field is added at their end
    intro labels fs m₁ hlabels hnodup hs
    obtain ⟨hname, hfinds⟩ := hcs
    cases labels with
    | nil => cases hlabels
    | cons label labels =>
      rw [List.map_cons, List.map_cons, List.cons.injEq] at hlabels
      rw [hlabels.1] at hname
      have hfresh : label ∉ fs.map (·.1) := fun hmem =>
        (List.nodup_append.mp hnodup).2.2 label hmem label List.mem_cons_self rfl
      obtain ⟨w, m₂, hs₂, hw, hrun⟩ := hfinds m₁ hs
      have hnodup' : ((fs ++ [(label, w)]).map (·.1) ++ labels).Nodup := by simpa using hnodup
      obtain ⟨ws, m₃, hs₃, hws, hrest⟩ := ih _ hlabels.2 hnodup' (hs.trans hs₂)
      refine ⟨w :: ws, m₃, hs₂.trans hs₃, .cons (hw.mono fun _ _ => hs₃.heap.cell) hws, ?_⟩
      have hcons : properties span (c :: cs) = .init span (.named label) c.value false :: properties span cs := by
        simp [properties, hname]
      rw [hcons, limit_props_cons, limit_prop_init (PropKey.named_eq label), hrun]
      simp only [Option.bind_some, andThen_ok]
      rw [Fields.set_of_notMem w hfresh, hrest, List.append_assoc]
      rfl

theorem findsRecord_object (span : Span) (h : List.Forall₂ (Capture.Finds m subject) cs selects)
    {labels : List String} (hlabels : selects.map (·.select.name) = labels.map some) (hnodup : labels.Nodup) :
    FindsRecord m subject labels selects (.object span (properties span cs)) := by
  intro m₁ hs
  obtain ⟨ws, m₂, hs₂, hws, hrun⟩ := limit_properties_find span h [] hlabels hnodup hs
  refine ⟨ws, m₂, hs₂, hws, ?_⟩
  rw [limit_expr_object, hrun]
  rfl

/-- Captures of one selection without a name, or of ones with different names, are handed over as such. -/
theorem hands_value? (span : Span) (h : List.Forall₂ (Capture.Finds m subject) cs selects)
    (hvalid : (∃ s, selects = [s] ∧ s.select.name = none) ∨
      ∃ labels : List String, selects.map (·.select.name) = labels.map some ∧ labels.Nodup) :
    Hands m subject selects (value? span cs) := by
  rcases hvalid with ⟨s, rfl, hname⟩ | ⟨labels, hlabels, hnodup⟩
  · cases h with
    | @cons c _ _ _ hcs hnil =>
      cases hnil
      obtain ⟨name, e⟩ := c
      obtain ⟨rfl, hfinds⟩ : name = s.select.name ∧ Eval.Finds m e _ := hcs
      rw [hname]
      exact .bare hname hfinds
  · have hobject := findsRecord_object span h hlabels hnodup
    cases h with
    | nil => exact .nothing
    | @cons c s cs selects hcs hrest =>
      have hne : labels ≠ [] := by
        rintro rfl
        cases hlabels
      obtain ⟨label, hlabel⟩ : ∃ label, c.name = some label := by
        cases labels with
        | nil => cases hlabels
        | cons label labels => exact ⟨label, hcs.1.trans (List.cons.inj hlabels).1⟩
      -- a first capture with a name is never handed over bare
      have hvalue : value? span (c :: cs) = some (.object span (properties span (c :: cs))) := by
        obtain ⟨name, e⟩ := c
        cases hlabel
        rfl
      rw [hvalue]
      exact .record hne hnodup hlabels hobject

end Capture

/-- The captures of a supported pattern are, in order, those of its selections, and each finds the component
    of the subject at the place of its selection. So what a branch of a match expression hands over is nothing
    without selections, the bare component for one without a name, and otherwise a record of the named ones. -/
theorem Capture.hands_selected {style : AccessStyle} (hsafe : style.nullSafe = true) {m : Machine} {x : String}
    {v : Value} (hx : m.lookup? x = some v) (inner : Span) :
    (∀ p : Pattern, p.unsupported? = none → (p.placed []).map (·.select) = p.selections ∧
      List.Forall₂ (Capture.Finds m (.value v)) (p.captures style (.ident inner x)) (p.placed [])) ∧
    ∀ (names : MatchNames) (e : Expr) (mx : MatchExpr), names.read e = .ok (some mx) → ∀ b ∈ mx.branches,
      b.placed.map (·.select) = b.selections ∧ Hands m (.value v) b.placed
        (Capture.value? style.span (b.patterns.flatMap (Pattern.captures style (.ident inner x)))) := by
  have htarget : Eval.Finds m (.ident inner x) (.value v) := .ident hx inner
  refine ⟨fun p hp => ⟨p.map_select_placed [] hp, p.captures_find hsafe htarget⟩, ?_⟩
  intro names e mx hread b hb
  obtain ⟨_, _, _, hbranches, _⟩ := MatchNames.read_adds hread
  have hcompilable := hbranches b hb
  have hselections := b.map_select_placed fun p hp =>
    (Pattern.unsupported?_eq_none_iff p).mpr (hcompilable.testable p hp)
  have hnames : b.placed.map (·.select.name) = b.selections.map (·.name) := by
    rw [← hselections, List.map_map]
    rfl
  refine ⟨hselections, hands_value? style.span (b.captures_find hsafe htarget) ?_⟩
  rcases hcompilable.captures with hnone | ⟨_, ⟨s, hs, hname⟩ | ⟨labels, hlabels, hnodup⟩⟩
  · exact .inr ⟨[], by rw [hnames, hnone]; rfl, .nil⟩
  · left
    rw [hs] at hselections
    obtain ⟨placed, hplaced, rfl⟩ := List.map_eq_singleton_iff.mp hselections
    exact ⟨placed, hplaced, hname⟩
  · exact .inr ⟨labels, hnames.trans hlabels, hnodup⟩

/-- A branch that selects the first element of an array and the kind of the second. -/
def sizedBranch : Branch :=
  { patterns := [.array [.select ⟨default, some "size", none⟩,
      .object [⟨"kind", .select ⟨default, some "kind", none⟩⟩]]]
    guard := none
    handler := .callable (.ident default "area")
    span := default }

/-- `match(shape).with([P.select('size'), { kind: P.select('kind') }], area).run()` -/
def sizedChain : Expr :=
  let s : Span := default
  let call (object : Expr) (name : String) (args : List Expr) : Expr :=
    .call s (.member s object name false) args false
  let selected (name : String) : Expr := call (.ident s "P") "select" [.str s name]
  let kind := .object s [.init s (.ident "kind") (selected "kind") false]
  let root := .call s (.ident s "match") [.ident s "shape"] false
  call (call root "with" [.array s [selected "size", kind], .ident s "area"]) "run" []

theorem Capture.hands_selected_shape :
    (Pattern.shapeMachine.lookup? "shape" = some (.array 11) ∧
      ({} : MatchNames).read sizedChain
        = .ok (some ⟨.ident default "shape", [sizedBranch], none, false, default⟩)) ∧
    ∃ e m', Capture.value? default
        (sizedBranch.patterns.flatMap (Pattern.captures ⟨default, true⟩ (.ident default "shape"))) = some e ∧
      Pattern.shapeMachine.Spawned m' ∧
      limit (expr · e) Pattern.shapeMachine = some (.ok (.object m'.heap.size),
        m'.allocated (.fields [("size", .number (.ofNat 1)), ("kind", .str "square")])) := by
  have hx : Pattern.shapeMachine.lookup? "shape" = some (.array 11) := by decide +kernel
  have hread : ({} : MatchNames).read sizedChain
      = .ok (some ⟨.ident default "shape", [sizedBranch], none, false, default⟩) := rfl
  have hitems : Pattern.shapeMachine.heap.items 11 = [.number (.ofNat 1), .object 10] := by decide +kernel
  have hfields : Pattern.shapeMachine.heap.fields 10 = [("kind", .str "square")] := by decide +kernel
  refine ⟨⟨hx, hread⟩, ?_⟩
  -- nothing else about the machine matters
  generalize Pattern.shapeMachine = m at hx hitems hfields ⊢
  have hsafe : AccessStyle.nullSafe ⟨default, true⟩ = true := rfl
  have hhands := ((Capture.hands_selected hsafe hx default).2 {} sizedChain _ hread sizedBranch List.mem_cons_self).2
  obtain ⟨e, he, hrecord⟩ := hhands.findsRecord (List.cons_ne_nil "size" ["kind"]) rfl
  obtain ⟨ws, m', hs, hws, hrun⟩ := hrecord m (.refl m)
  have hplaced : sizedBranch.placed = [⟨⟨default, some "size", none⟩, [.element 0]⟩,
    ⟨⟨default, some "kind", none⟩, [.element 1, .field "kind"]⟩] := rfl
  rw [hplaced] at hws
  obtain ⟨w, _, hw, hrest, rfl⟩ := List.forall₂_cons_left_iff.mp hws
  obtain ⟨u, _, hu, hnil, rfl⟩ := List.forall₂_cons_left_iff.mp hrest
  obtain rfl := List.forall₂_nil_left_iff.mp hnil
  have hone : ([.number (.ofNat 1), .object 10] : List Value)[1]?.getD .undefined = .object 10 := rfl
  rw [Component.follow_element _ _ (by decide), hitems] at hw
  rw [Component.follow_element _ _ (by decide), hitems, hone, Component.follow_field, hfields] at hu
  cases hw
  cases hu
  exact ⟨e, m', he, hs, hrun⟩

end MatchChain
