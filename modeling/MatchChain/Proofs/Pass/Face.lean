import MatchChain.Code.Generate
import MatchChain.Match.Reading

/-!
# What compiling sees of an expression

Whether a chain can be compiled depends on its arguments only through their `face`: what kind of
expression each is, whether it waits, and the pattern it stands for. Walking an expression keeps its face,
even where it replaces a chain inside by code.
-/

set_option autoImplicit false

namespace MatchChain

variable {e e' : Expr}

/-! ## Waiting -/

/-- Whether a node is one that waits. -/
def Visit.isAwait (v : Visit) : Bool :=
  match v.node with
  | .expr (.unary _ .await _) => true
  | _ => false

def PropKey.awaits : PropKey → Bool
  | .computed e => e.awaits
  | _ => false

/-- Whether the key or the value of a property waits. -/
def Property.awaits : Property → Bool
  | .init _ key value _ => key.awaits || value.awaits
  | .spread _ value => value.awaits

namespace Expr

theorem awaits_eq (e : Expr) :
    e.awaits = (Visit.ofExpr (fun _ => false) false e).any Visit.isAwait := rfl

theorem any_ofExprs (es : List Expr) :
    (Visit.ofExprs (fun _ => false) false es).any Visit.isAwait = es.any awaits := by
  induction es with
  | nil => rfl
  | cons e es ih =>
    change (Visit.ofExpr _ false e ++ Visit.ofExprs _ false es).any Visit.isAwait = _
    rw [List.any_append, ih, List.any_cons, awaits_eq]

theorem any_ofProps (ps : List Property) :
    (Visit.ofProps (fun _ => false) false ps).any Visit.isAwait = ps.any Property.awaits := by
  induction ps with
  | nil => rfl
  | cons p ps ih =>
    rw [List.any_cons, ← ih]
    cases p with
    | spread span value => exact List.any_append
    | init span key value shorthand =>
      change (Visit.ofKey _ false key ++ Visit.ofExpr _ false value ++ Visit.ofProps _ false ps).any Visit.isAwait = _
      rw [List.any_append, List.any_append]
      cases key <;> rfl

variable (span : Span)

theorem awaits_template (texts : List TemplateText) (holes : List Expr) :
    awaits (.template span texts holes) = holes.any awaits := any_ofExprs holes

theorem awaits_array (items : List Expr) : awaits (.array span items) = items.any awaits :=
  any_ofExprs items

theorem awaits_object (ps : List Property) : awaits (.object span ps) = ps.any Property.awaits :=
  any_ofProps ps

theorem awaits_unary (op : UnaryOp) (e : Expr) :
    awaits (.unary span op e) = (op == .await || e.awaits) := by
  cases op <;> rfl

theorem awaits_binary (op : BinaryOp) (e₁ e₂ : Expr) :
    awaits (.binary span op e₁ e₂) = (e₁.awaits || e₂.awaits) :=
  List.any_append

theorem awaits_conditional (e₁ e₂ e₃ : Expr) :
    awaits (.conditional span e₁ e₂ e₃) = ((e₁.awaits || e₂.awaits) || e₃.awaits) := by
  change (Visit.ofExpr _ false e₁ ++ Visit.ofExpr _ false e₂ ++ Visit.ofExpr _ false e₃).any Visit.isAwait = _
  rw [List.any_append, List.any_append]
  rfl

theorem awaits_assign (op : AssignOp) (e₁ e₂ : Expr) :
    awaits (.assign span op e₁ e₂) = (e₁.awaits || e₂.awaits) :=
  List.any_append

theorem awaits_member (e : Expr) (property : String) (optional : Bool) :
    awaits (.member span e property optional) = e.awaits := rfl

theorem awaits_index (e₁ e₂ : Expr) (optional : Bool) :
    awaits (.index span e₁ e₂ optional) = (e₁.awaits || e₂.awaits) :=
  List.any_append

theorem awaits_call (callee : Expr) (args : List Expr) (optional : Bool) :
    awaits (.call span callee args optional) = (callee.awaits || args.any awaits) := by
  rw [← any_ofExprs]
  exact List.any_append

theorem awaits_construct (callee : Expr) (args : List Expr) :
    awaits (.construct span callee args) = (callee.awaits || args.any awaits) := by
  rw [← any_ofExprs]
  exact List.any_append

theorem awaits_func (fn : Func) : awaits (.func span fn) = false := by
  cases fn
  rfl

end Expr

/-! ## Patterns that code is generated for -/

/-- The value of a number. -/
def Expr.number? : Expr → Option Double
  | .num _ value => some value
  | _ => none

def Expr.isAssign : Expr → Bool
  | .assign .. => true
  | _ => false

/-- The property that a member expression names. -/
def Expr.property? : Expr → Option String
  | .member _ _ property _ => some property
  | _ => none

/-- What is seen of an expression. -/
@[ext] structure Face where
  span : Span
  isCall : Bool
  isAssign : Bool
  isFunc : Bool
  isSpread : Bool
  isUncallable : Bool
  awaits : Bool
  text : Option String
  number : Option Double
  isNamespace : Bool
  member : Option String
  property : Option String
  /-- The pattern that the expression stands for, if code can be generated for it. -/
  pattern : Option Pattern

/-- What is seen of a property of an object: the field of a pattern that it stands for. -/
structure PropFace where
  awaits : Bool
  field : Option FieldPattern

namespace Face

/-- The patterns of array elements. -/
def elements : List Face → Option (List Pattern)
  | [] => some []
  | f :: fs => if f.isSpread then none else do return (← f.pattern) :: (← elements fs)

/-- The pattern of a selection. -/
def selected (span : Span) : List Face → Option Pattern
  | [] => some (.select ⟨span, none, none⟩)
  | [only] =>
    match only.text with
    | some name => some (.select ⟨span, some name, none⟩)
    | none => only.pattern.map fun p => .select ⟨span, none, some p⟩
  | [label, inner] =>
    label.text.bind fun name => inner.pattern.map fun p => .select ⟨span, some name, some p⟩
  | _ => none

/-- The pattern of a call of a member of the pattern namespace. -/
def called (name : String) (span : Span) (args : List Face) : Option Pattern :=
  if args.any isSpread then none else if name == "select" then selected span args else none

end Face

namespace MatchNames

variable (names : MatchNames)

/-- The pattern that an expression stands for, if code can be generated for it. -/
def supported? (e : Expr) : Option Pattern :=
  (names.pattern e).toOption.filter fun p => p.unsupported?.isNone

def face (e : Expr) : Face where
  span := e.span
  isCall := e.isCall
  isAssign := e.isAssign
  isFunc := e.isFunc
  isSpread := e.isSpread
  isUncallable := e.isUncallable
  awaits := e.awaits
  text := textOf? e
  number := e.number?
  isNamespace := names.isNamespace e
  member := names.namespaceMember? e
  property := e.property?
  pattern := names.supported? e

/-- The field of an object pattern that a property stands for. -/
def field? : Property → Option FieldPattern
  | .init _ key value _ => do return ⟨← fieldName? key, ← names.supported? value⟩
  | .spread .. => none

def propFace (p : Property) : PropFace := ⟨p.awaits, names.field? p⟩

/-- A step whose result is put into something gives something acceptable if the result is. -/
theorem filter_map {ε α β : Type} (x : Except ε α) (f : α → β) {F : β → Bool} {G : α → Bool}
    (h : ∀ a, F (f a) = G a) :
    (do return f (← x) : Except ε β).toOption.filter F = (x.toOption.filter G).map f := by
  cases x with
  | error => rfl
  | ok a =>
    change Option.filter F (some (f a)) = (Option.filter G (some a)).map f
    rw [Option.filter_some, Option.filter_some, h]
    cases G a <;> rfl

/-- Two steps in a row succeed with something acceptable if each does. -/
theorem filter_seq {ε α β γ : Type} (x : Except ε α) (y : Except ε β) (f : α → β → γ) {F : γ → Bool}
    {G : α → Bool} {H : β → Bool} (h : ∀ a b, F (f a b) = (G a && H b)) :
    (do return f (← x) (← y) : Except ε γ).toOption.filter F
      = do return f (← x.toOption.filter G) (← y.toOption.filter H) := by
  cases x with
  | error => rfl
  | ok a =>
    cases y with
    | error =>
      change none = (Option.filter G (some a)).bind fun _ => none
      cases Option.filter G (some a) <;> rfl
    | ok b =>
      change Option.filter F (some (f a b)) = (Option.filter G (some a)).bind fun a =>
        (Option.filter H (some b)).bind fun b => some (f a b)
      rw [Option.filter_some, Option.filter_some, Option.filter_some, h]
      cases G a <;> cases H b <;> rfl

theorem elements_face (span : Span) (items : List Expr) :
    (names.elementPatterns span items).toOption.filter (fun ps => (Pattern.listUnsupported? ps).isNone)
      = Face.elements (items.map names.face) := by
  induction items with
  | nil => rfl
  | cons e es ih =>
    rw [elementPatterns, List.map_cons, Face.elements, ← ih]
    change _ = if e.isSpread then none else do return (← names.supported? e) :: (← _)
    cases e.isSpread with
    | true => rfl
    | false =>
      exact filter_seq (names.pattern e) (names.elementPatterns span es) List.cons fun _ _ => Option.isNone_or

theorem fields_face (ps : List Property) :
    (names.fieldPatterns ps).toOption.filter (fun fs => (Pattern.fieldUnsupported? fs).isNone)
      = ps.mapM names.field? := by
  induction ps with
  | nil => rfl
  | cons p ps ih =>
    rw [List.mapM_cons, ← ih]
    cases p with
    | spread span value => rfl
    | init span key value shorthand =>
      rw [fieldPatterns, field?]
      cases fieldName? key with
      | none => rfl
      | some name =>
        change Option.filter _ (do return ⟨name, ← names.pattern value⟩ :: (← names.fieldPatterns ps) :
          Except _ _).toOption = _
        have hsplit : ∀ (p : Pattern) (fs : List FieldPattern),
            (Pattern.fieldUnsupported? (⟨name, p⟩ :: fs)).isNone
              = (p.unsupported?.isNone && (Pattern.fieldUnsupported? fs).isNone) :=
          fun _ _ => Option.isNone_or
        rw [filter_seq (names.pattern value) (names.fieldPatterns ps) (fun p fs => ⟨name, p⟩ :: fs) hsplit,
          ← supported?]
        cases names.supported? value <;> rfl

variable (span : Span)

theorem supported?_array (items : List Expr) :
    names.supported? (.array span items) = (Face.elements (items.map names.face)).map .array := by
  rw [← names.elements_face span]
  exact filter_map (names.elementPatterns span items) Pattern.array fun _ => rfl

theorem supported?_object (ps : List Property) :
    names.supported? (.object span ps) = (ps.mapM names.field?).map .object := by
  rw [← names.fields_face]
  exact filter_map (names.fieldPatterns ps) Pattern.object fun _ => rfl

theorem argPatterns_eq (args : List Expr) :
    names.argPatterns args = args.map fun e => (e, names.pattern e) := by
  induction args with
  | nil => rfl
  | cons e es ih => rw [argPatterns, ih, List.map_cons]

theorem select_face (args : List Expr) :
    (selectPattern span (names.argPatterns args)).toOption.filter (fun p => p.unsupported?.isNone)
      = Face.selected span (args.map names.face) := by
  have hinner : ∀ (name : Option String) (e : Expr),
      (do return Pattern.select ⟨span, name, some (← names.pattern e)⟩ : Except MatchError Pattern).toOption.filter
          (fun p => p.unsupported?.isNone)
        = (names.supported? e).map fun p => .select ⟨span, name, some p⟩ :=
    fun name e => filter_map (names.pattern e) (fun p => Pattern.select ⟨span, name, some p⟩) fun _ => rfl
  rcases args with _ | ⟨only, _ | ⟨inner, _ | ⟨more, rest⟩⟩⟩
  · rfl
  · rw [argPatterns, argPatterns, selectPattern, List.map_cons, List.map_nil, Face.selected]
    change _ = match textOf? only with
      | some name => some (Pattern.select ⟨span, some name, none⟩)
      | none => (names.supported? only).map fun p => Pattern.select ⟨span, none, some p⟩
    cases textOf? only with
    | some name => rfl
    | none => exact hinner none only
  · rw [argPatterns, argPatterns, argPatterns, selectPattern]
    change _ = (textOf? only).bind fun name => (names.supported? inner).map fun p =>
      Pattern.select ⟨span, some name, some p⟩
    cases textOf? only with
    | none => rfl
    | some name => exact hinner (some name) inner
  · rfl

theorem find?_argPatterns (args : List Expr) :
    ((names.argPatterns args).find? (·.1.isSpread)).isSome = (args.map names.face).any Face.isSpread := by
  rw [argPatterns_eq]
  induction args with
  | nil => rfl
  | cons e es ih =>
    rw [List.map_cons, List.map_cons, List.find?_cons, List.any_cons, ← ih]
    change _ = (e.isSpread || _)
    cases e.isSpread <;> rfl

theorem call_face (name : String) (args : List Expr) :
    (callPattern name span (names.argPatterns args)).toOption.filter (fun p => p.unsupported?.isNone)
      = Face.called name span (args.map names.face) := by
  have hspread := names.find?_argPatterns args
  unfold callPattern Face.called
  split
  next arg p hfind =>
    rw [hfind] at hspread
    rw [← hspread]
    rfl
  next hfind =>
    rw [hfind] at hspread
    rw [← hspread]
    split
    next => exact names.select_face span args
    next inner _ => cases inner <;> rfl
    next => rfl
    next inner _ => cases inner <;> rfl
    next key _ value _ => cases key <;> cases value <;> rfl
    next hselect _ _ _ _ =>
      rw [beq_eq_false_iff_ne.mpr hselect]
      split <;> rfl

theorem supported?_call (callee : Expr) (args : List Expr) :
    names.supported? (.call span callee args false)
      = (names.namespaceMember? callee).bind fun name => Face.called name span (args.map names.face) := by
  rw [supported?, pattern]
  cases names.namespaceMember? callee with
  | none => rfl
  | some name => exact names.call_face span name args

/-! ## Faces of nodes with other parts -/

variable {names} {span}

theorem any_awaits {es : List Expr} : es.any Expr.awaits = (es.map names.face).any Face.awaits := by
  rw [List.any_map]
  rfl

theorem face_awaits (h : names.face e' = names.face e) : e'.awaits = e.awaits :=
  congrArg Face.awaits h

/-- A face is given by what waits, by the pattern and by what does not depend on the parts of a node. -/
theorem face_congr (hawaits : e'.awaits = e.awaits) (hpattern : names.supported? e' = names.supported? e)
    (hrest : { names.face e' with awaits := false, pattern := none }
      = { names.face e with awaits := false, pattern := none }) : names.face e' = names.face e := by
  have heq (e : Expr) : names.face e = { ({ names.face e with awaits := false, pattern := none } : Face) with
      awaits := e.awaits, pattern := names.supported? e } := rfl
  rw [heq e', heq e, hawaits, hpattern, hrest]

theorem face_template {texts : List TemplateText} {holes holes' : List Expr}
    (h : holes'.map names.face = holes.map names.face) :
    names.face (.template span texts holes') = names.face (.template span texts holes) := by
  refine face_congr ?_ ?_ rfl
  · rw [Expr.awaits_template, Expr.awaits_template, any_awaits, h, ← any_awaits]
  · cases holes with
    | nil => rw [List.map_eq_nil_iff.mp h]
    | cons e es =>
      cases holes' with
      | nil => cases h
      | cons e' es' => rcases texts with _ | ⟨text, _ | ⟨more, texts⟩⟩ <;> rfl

theorem face_array {items items' : List Expr} (h : items'.map names.face = items.map names.face) :
    names.face (.array span items') = names.face (.array span items) := by
  refine face_congr ?_ ?_ rfl
  · rw [Expr.awaits_array, Expr.awaits_array, any_awaits, h, ← any_awaits]
  · rw [supported?_array, supported?_array, h]

theorem mapM_field? (ps : List Property) :
    ps.mapM names.field? = (ps.map names.propFace).mapM PropFace.field := by
  induction ps with
  | nil => rfl
  | cons p ps ih =>
    rw [List.mapM_cons, ih, List.map_cons, List.mapM_cons]
    rfl

theorem any_propAwaits {ps : List Property} :
    ps.any Property.awaits = (ps.map names.propFace).any PropFace.awaits := by
  rw [List.any_map]
  rfl

theorem face_object {ps ps' : List Property} (h : ps'.map names.propFace = ps.map names.propFace) :
    names.face (.object span ps') = names.face (.object span ps) := by
  refine face_congr ?_ ?_ rfl
  · rw [Expr.awaits_object, Expr.awaits_object, any_propAwaits, h, ← any_propAwaits]
  · rw [supported?_object, supported?_object, mapM_field?, h, ← mapM_field?]

theorem face_call {callee callee' : Expr} {args args' : List Expr} {optional : Bool}
    (hcallee : names.face callee' = names.face callee) (hargs : args'.map names.face = args.map names.face) :
    names.face (.call span callee' args' optional) = names.face (.call span callee args optional) := by
  have hmember : names.namespaceMember? callee' = names.namespaceMember? callee := congrArg Face.member hcallee
  refine face_congr ?_ ?_ rfl
  · rw [Expr.awaits_call, Expr.awaits_call, any_awaits, hargs, ← any_awaits, face_awaits hcallee]
  · cases optional with
    | true => rfl
    | false => rw [supported?_call, supported?_call, hmember, hargs]

theorem propFace_spread (h : names.face e' = names.face e) :
    names.propFace (.spread span e') = names.propFace (.spread span e) :=
  congrArg (PropFace.mk · none) (face_awaits h)

theorem propFace_init {key key' : PropKey} {shorthand : Bool}
    (hname : fieldName? key' = fieldName? key) (hkey : key'.awaits = key.awaits)
    (h : names.face e' = names.face e) :
    names.propFace (.init span key' e' shorthand) = names.propFace (.init span key e shorthand) := by
  have hpattern : names.supported? e' = names.supported? e := congrArg Face.pattern h
  rw [propFace, propFace, field?, field?, Property.awaits, Property.awaits, hname, hkey, face_awaits h, hpattern]

theorem face_func (fn fn' : Func) : names.face (.func span fn') = names.face (.func span fn) :=
  face_congr ((Expr.awaits_func span fn').trans (Expr.awaits_func span fn).symm) rfl rfl

section Plain

variable {e e' e₁ e₁' e₂ e₂' e₃ e₃' : Expr} (h : names.face e' = names.face e)
  (h₁ : names.face e₁' = names.face e₁) (h₂ : names.face e₂' = names.face e₂)
  (h₃ : names.face e₃' = names.face e₃)

theorem supported?_unary (op : UnaryOp) (e : Expr) : names.supported? (.unary span op e)
    = if op = .neg then e.number?.map fun value => .literal (.num value.neg) else none := by
  cases op <;> cases e <;> rfl

include h

theorem face_unary (op : UnaryOp) : names.face (.unary span op e') = names.face (.unary span op e) := by
  have hnumber : e'.number? = e.number? := congrArg Face.number h
  refine face_congr ?_ ?_ rfl
  · rw [Expr.awaits_unary, Expr.awaits_unary, face_awaits h]
  · rw [supported?_unary, supported?_unary, hnumber]

theorem face_spread : names.face (.spread span e') = names.face (.spread span e) := by
  have hawaits := face_awaits h
  exact face_congr hawaits rfl rfl

theorem face_member (property : String) (optional : Bool) :
    names.face (.member span e' property optional) = names.face (.member span e property optional) := by
  have hnamespace : names.isNamespace e' = names.isNamespace e := congrArg Face.isNamespace h
  have hawaits := face_awaits h
  cases optional with
  | true => exact face_congr hawaits rfl rfl
  | false =>
    refine face_congr hawaits ?_ ?_
    · rw [supported?, supported?, pattern, pattern, hnamespace]
    · simp only [face, namespaceMember?, hnamespace]
      rfl

omit h
include h₁ h₂

theorem face_binary (op : BinaryOp) :
    names.face (.binary span op e₁' e₂') = names.face (.binary span op e₁ e₂) := by
  refine face_congr ?_ rfl rfl
  rw [Expr.awaits_binary, Expr.awaits_binary, face_awaits h₁, face_awaits h₂]

theorem face_assign (op : AssignOp) :
    names.face (.assign span op e₁' e₂') = names.face (.assign span op e₁ e₂) := by
  refine face_congr ?_ rfl rfl
  rw [Expr.awaits_assign, Expr.awaits_assign, face_awaits h₁, face_awaits h₂]

theorem face_index (optional : Bool) :
    names.face (.index span e₁' e₂' optional) = names.face (.index span e₁ e₂ optional) := by
  refine face_congr ?_ rfl rfl
  rw [Expr.awaits_index, Expr.awaits_index, face_awaits h₁, face_awaits h₂]

include h₃ in
theorem face_conditional :
    names.face (.conditional span e₁' e₂' e₃') = names.face (.conditional span e₁ e₂ e₃) := by
  refine face_congr ?_ rfl rfl
  rw [Expr.awaits_conditional, Expr.awaits_conditional, face_awaits h₁, face_awaits h₂, face_awaits h₃]

end Plain

theorem face_construct {callee callee' : Expr} {args args' : List Expr}
    (hcallee : names.face callee' = names.face callee) (hargs : args'.map names.face = args.map names.face) :
    names.face (.construct span callee' args') = names.face (.construct span callee args) := by
  refine face_congr ?_ rfl rfl
  rw [Expr.awaits_construct, Expr.awaits_construct, any_awaits, hargs, ← any_awaits, face_awaits hcallee]

end MatchNames

end MatchChain
