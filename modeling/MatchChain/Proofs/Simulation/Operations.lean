import MatchChain.Proofs.Simulation.Rules

/-!
# Operations that run alike

The machine's own operations, and the built-in functions, on values that stand for each other.
-/

set_option autoImplicit false

namespace MatchChain

variable {v v' : Value} {vs vs' : List Value} {r r' : Except EvalError Flow} {x : String}

/-! ## Errors of operators -/

namespace Heap

/-- Operators throw no value. -/
theorem binary_error {h : Heap} {span : Span} {op : BinaryOp} {a b : Value} {e : EvalError}
    (he : h.binary span op a b = .error e) (w : World) : w.RelError e e := by
  cases op with
  | isIn =>
    unfold Heap.binary Heap.hasKey at he
    cases b <;> first | (obtain rfl := Except.error.inj he; exact .type _ _) | cases he
  | instanceOf | and | or | nullish =>
    obtain rfl := Except.error.inj he
    exact .unsupported _ _
  | _ => cases he

theorem unary_error {h : Heap} {span : Span} {op : UnaryOp} {a : Value} {e : EvalError}
    (he : h.unary span op a = .error e) (w : World) : w.RelError e e := by
  cases op with
  | delete | await =>
    obtain rfl := Except.error.inj he
    exact .unsupported _ _
  | neg => cases a <;> cases he
  | _ => cases he

end Heap

namespace Sim

open Eval

variable {names : String → Prop} {w : World} {s t : Nat}

/-! ## Cells -/

theorem text (hv : w.Rel v v') :
    Sim names w s t (fun _ => Eq) (text v) (text v') :=
  keeping fun m₁ m₂ _ ha => ⟨_, _, run_text v m₁, run_text v' m₂, ha.text hv⟩

theorem items {i j : Nat} (hc : w.cells i j) :
    Sim names w s t World.RelList (items i) (items j) :=
  keeping fun m₁ m₂ _ ha => ⟨_, _, run_items i m₁, run_items j m₂, ha.items hc⟩

theorem fields {i j : Nat} (hc : w.cells i j) :
    Sim names w s t World.RelFields (fields i) (fields j) :=
  keeping fun m₁ m₂ _ ha => ⟨_, _, run_fields i m₁, run_fields j m₂, ha.fields hc⟩

theorem this : Sim names w s t World.Rel (do return (← MonadState.get).this)
    (do return (← MonadState.get).this) :=
  keeping fun m₁ m₂ hp _ => ⟨m₁.this, m₂.this, rfl, rfl, hp.this⟩

theorem alloc {c d : Cell} (h : w.RelCell names c d) :
    Sim names w s t World.cells (alloc c) (alloc d) := by
  intro m₁ m₂ _ ha
  rw [run_alloc, run_alloc]
  exact .ok (ha.allocated h) ⟨rfl, rfl, rfl, rfl⟩ ⟨rfl, rfl, rfl, rfl⟩ (.inr ⟨rfl, rfl⟩)

theorem newArray (h : w.RelList vs vs') :
    Sim names w s t World.Rel (newArray vs) (newArray vs') :=
  (alloc (.items h)).map fun _ _ _ _ hc => .array hc

theorem newObject {fs fs' : Fields} (h : w.RelFields fs fs') :
    Sim names w s t World.Rel (newObject fs) (newObject fs') :=
  (alloc (.fields h)).map fun _ _ _ _ hc => .object hc

theorem newMethod (fn : Native) (h : w.Rel v v') :
    Sim names w s t World.Rel (newMethod fn v) (newMethod fn v') :=
  (alloc (.native h)).map fun _ _ _ _ hc => .function hc

theorem newClosure (hst : w.chains s t) {fn : Func} (hfn : fn.Within names) :
    Sim names w s t World.Rel (newClosure fn) (newClosure fn) := by
  intro m₁ m₂ hp ha
  have hcell : w.RelCell names (.closure (m₁.closure fn)) (.closure (m₂.closure fn)) := by
    refine .closure hfn (by rw [hp.current₁, hp.current₂]; exact hst) ?_
    split
    · exact .some hp.this
    · exact .none
  rw [run_newClosure, run_newClosure]
  exact .ok (ha.allocated hcell) ⟨rfl, rfl, rfl, rfl⟩ ⟨rfl, rfl, rfl, rfl⟩ (.function (.inr ⟨rfl, rfl⟩))

theorem write {i j : Nat} (hc : w.cells i j) {c d : Cell} (h : w.RelCell names c d) :
    Sim names w s t (fun _ => Eq) (write i c) (write j d) := by
  intro m₁ m₂ _ ha
  rw [run_write, run_write]
  exact .ok (ha.written hc h) ⟨rfl, rfl, rfl, rfl⟩ ⟨rfl, rfl, rfl, rfl⟩ rfl

theorem output (line : String) :
    Sim names w s t (fun _ => Eq) (modify fun m => { m with output := m.output.push line } : Eval PUnit)
      (modify fun m => { m with output := m.output.push line } : Eval PUnit) := by
  intro m₁ m₂ _ ha
  have hgrown : Grown names noNames w m₁ m₂ w { m₁ with output := m₁.output.push line }
      { m₂ with output := m₂.output.push line } :=
    ⟨w.le_refl, fun _ _ hc => .inl hc, fun _ _ hs => .inl hs, (Kept.refl _ _ m₁).congr rfl rfl,
      (Kept.refl _ _ m₂).congr rfl rfl,
      ha.congr rfl rfl rfl rfl (congrArg (fun lines => lines.push line) ha.output)⟩
  exact .ok hgrown ⟨rfl, rfl, rfl, rfl⟩ ⟨rfl, rfl, rfl, rfl⟩ rfl

/-! ## Variables -/

theorem define (hst : w.scopes s t) (hx : names x) (hv : w.Rel v v')
    (isMutable : Bool) :
    Sim names w s t (fun _ => Eq) (define x v isMutable) (define x v' isMutable) := by
  intro m₁ m₂ hp ha
  rw [run_define, run_define, hp.current₁, hp.current₂]
  exact .ok (ha.defined hst hx ⟨hv, rfl⟩) ⟨rfl, rfl, rfl, rfl⟩ ⟨rfl, rfl, rfl, rfl⟩ rfl

theorem lookup? (hst : w.chains s t) (hx : names x) :
    Sim names w s t World.RelOption (lookup? x) (lookup? x) := by
  refine keeping fun m₁ m₂ hp ha => ⟨_, _, run_lookup? x m₁, run_lookup? x m₂, ?_⟩
  unfold Machine.lookup?
  rw [hp.current₁, hp.current₂]
  exact ha.lookup hx hst

theorem lookup (hst : w.chains s t) (hx : names x) (span : Span) :
    Sim names w s t World.Rel (lookup x span) (lookup x span) := by
  refine (lookup? hst hx).bind fun w' o o' _ ho => ?_
  cases ho with
  | none => exact raise (.reference x span)
  | some hv => exact pure hv

theorem assign (hst : w.chains s t) (hx : names x) (hv : w.Rel v v')
    (span : Span) : Sim names w s t (fun _ => Eq) (assign x v span) (assign x v' span) := by
  intro m₁ m₂ hp ha
  have howner := ha.owner hx hst
  rw [run_assign, run_assign, hp.current₁, hp.current₂]
  generalize m₁.scopes.owner? s x = o at howner
  generalize m₂.scopes.owner? t x = o' at howner
  cases howner with
  | none => exact .raised (.refl ha) (.refl m₁) (.refl m₂) (.reference x span)
  | @some p q h =>
    obtain ⟨a, u⟩ := p
    obtain ⟨b, u'⟩ := q
    obtain ⟨hab, hu⟩ := h
    dsimp only
    rw [hu.isMutable]
    split
    · exact .ok (ha.defined hab hx ⟨hv, rfl⟩) ⟨rfl, rfl, rfl, rfl⟩ ⟨rfl, rfl, rfl, rfl⟩ rfl
    · exact .raised (.refl ha) (.refl m₁) (.refl m₂) (.type _ _)

/-! ## Operators -/

theorem binary (span : Span) (op : BinaryOp) {a a' b b' : Value} (ha : w.Rel a a') (hb : w.Rel b b') :
    Sim names w s t World.Rel (do Eval.lift ((← MonadState.get).heap.binary span op a b))
      (do Eval.lift ((← MonadState.get).heap.binary span op a' b')) := by
  refine get fun m₁ m₂ _ hagree => ?_
  rw [hagree.binary ha hb]
  exact lift (fun v hv => ⟨v, hv, .plain (Heap.binary_isReference hv)⟩)
    fun e he => ⟨e, he, Heap.binary_error he w⟩

theorem unary (span : Span) (op : UnaryOp) {a a' : Value} (ha : w.Rel a a') :
    Sim names w s t World.Rel (do Eval.lift ((← MonadState.get).heap.unary span op a))
      (do Eval.lift ((← MonadState.get).heap.unary span op a')) := by
  refine get fun m₁ m₂ _ hagree => ?_
  rw [hagree.unary ha]
  exact lift (fun v hv => ⟨v, hv, .plain (Heap.unary_isReference hv)⟩)
    fun e he => ⟨e, he, Heap.unary_error he w⟩

/-! ## Properties -/

theorem method (hv : w.Rel v v') (fn : Option Native) :
    Sim names w s t World.Rel (method v fn) (method v' fn) := by
  cases fn with
  | none => exact pure (.plain rfl)
  | some fn => exact newMethod fn hv

theorem getProperty (hv : w.Rel v v') (key : String) (span : Span) :
    Sim names w s t World.Rel (getProperty v key span) (getProperty v' key span) := by
  cases hv with
  | @plain v hp =>
    cases v with
    | undefined | null =>
      refine (text (.plain rfl)).bind fun w' a b _ hab => ?_
      obtain rfl := hab
      exact typeError _ _
    | str text =>
      unfold Eval.getProperty
      dsimp only
      split
      · exact pure (.plain rfl)
      · split
        · rename_i i hi
          cases text.toList[i]? with
          | none => exact pure (.plain rfl)
          | some c => exact pure (.plain rfl)
        · exact method (.plain rfl) _
    | bool | number | bigint => exact pure (.plain rfl)
    | array | object | function => cases hp
  | array hc =>
    unfold Eval.getProperty
    dsimp only
    refine (items hc).bind fun w' vs vs' hle hvs => ?_
    split
    · rw [hvs.length]
      exact pure (.plain rfl)
    · split
      · exact pure (hvs.getElem? _).getD
      · exact method (.array (hle.1 _ _ hc)) _
  | object hc => exact (fields hc).map fun _ _ _ _ hfs => (hfs.get? key).getD
  | function => exact pure (.plain rfl)

theorem setProperty {v v' u u' : Value} (hv : w.Rel v v') (key : String) (hu : w.Rel u u')
    (span : Span) :
    Sim names w s t (fun _ => Eq) (setProperty v key u span) (setProperty v' key u' span) := by
  cases hv with
  | @plain v hp =>
    cases v with
    | undefined | null =>
      refine (text (.plain rfl)).bind fun w' a b _ hab => ?_
      obtain rfl := hab
      exact typeError _ _
    | bool | number | bigint | str => exact pure rfl
    | array | object | function => cases hp
  | array hc =>
    unfold Eval.setProperty
    dsimp only
    refine (items hc).bind fun w' vs vs' hle hvs => ?_
    have hc' := hle.1 _ _ hc
    split
    · refine get fun m₁ m₂ _ ha => ?_
      rw [ha.toNumber (hu.mono hle)]
      split
      · refine (typeError (R := fun _ => Eq) _ _).bind fun w₁ _ _ hle₁ _ => ?_
        exact write (hle₁.1 _ _ hc') (.items ((hvs.mono hle₁).resize _))
      · exact write hc' (.items (hvs.resize _))
    · split
      · rw [hvs.length]
        exact write hc' (.items ((hvs.resize _).set _ (hu.mono hle)))
      · exact pure rfl
  | object hc =>
    refine (fields hc).bind fun w' fs fs' hle hfs => ?_
    exact write (hle.1 _ _ hc) (.fields (hfs.set key (hu.mono hle)))
  | function => exact pure rfl

theorem iterate (hv : w.Rel v v') (span : Span) :
    Sim names w s t World.RelList (iterate v span) (iterate v' span) := by
  cases hv with
  | @plain v hp =>
    cases v with
    | str text =>
      refine pure (List.forall₂_same.mpr fun v hv => ?_)
      obtain ⟨c, _, rfl⟩ := List.mem_map.mp hv
      exact .plain rfl
    | array => cases hp
    | undefined | null | bool | number | bigint | object | function => exact typeError _ _
  | array hc => exact items hc
  | object | function => exact typeError _ _

theorem restOf (hv : w.Rel v v') (taken : List String) :
    Sim names w s t World.Rel (restOf v taken) (restOf v' taken) := by
  cases hv with
  | @plain v hp =>
    cases v with
    | object => cases hp
    | undefined | null | bool | number | bigint | str | array | function => exact newObject .nil
  | object hc => exact (fields hc).bind fun _ _ _ _ hfs => newObject (hfs.filter fun key => !taken.contains key)
  | array | function => exact newObject .nil

theorem spreadFields (hv : w.Rel v v') :
    Sim names w s t World.RelFields (spreadFields v) (spreadFields v') := by
  cases hv with
  | @plain v hp =>
    cases v with
    | array | object => cases hp
    | undefined | null | bool | number | bigint | str | function => exact pure .nil
  | array hc => exact (items hc).map fun _ _ _ _ hvs => .mapIdx hvs
  | object hc => exact fields hc
  | function => exact pure .nil

theorem caught {e e' : EvalError} (he : w.RelError e e') :
    Sim names w s t World.Rel (caught e) (caught e') := by
  have hfields : ∀ name message, w.RelFields (EvalError.errorFields name message)
      (EvalError.errorFields name message) := fun _ _ =>
    .cons ⟨rfl, .plain rfl⟩ (.cons ⟨rfl, .plain rfl⟩ .nil)
  cases he with
  | thrown hv => exact pure hv
  | type | reference | callDepth | unsupported => exact newObject (hfields _ _)

theorem checkParts (hv : w.Rel v v') (span : Span) :
    Sim names w s t (fun _ => Eq) (checkParts v span) (checkParts v' span) := by
  unfold Eval.checkParts
  rw [hv.isNullish]
  split
  · refine (text hv).bind fun w' a b _ hab => ?_
    obtain rfl := hab
    exact typeError _ _
  · exact pure rfl

theorem readPlace (hst : w.chains s t) {p p' : Place} (hp : w.RelPlace names p p') (span : Span) :
    Sim names w s t World.Rel (readPlace span p) (readPlace span p') := by
  cases hp with
  | named hx => exact lookup hst hx span
  | property key hv => exact getProperty hv key span

theorem writePlace (hst : w.chains s t) {p p' : Place} (hp : w.RelPlace names p p') (span : Span)
    (hv : w.Rel v v') :
    Sim names w s t (fun _ => Eq) (writePlace span v p) (writePlace span v' p') := by
  cases hp with
  | named hx => exact assign hst hx hv span
  | property key hu => exact setProperty hu key hv span

/-! ## Functions -/

theorem hoist (hst : w.scopes s t) {ss : List Stmt} (hss : ∀ x ∈ ss, x.Within names) :
    Sim names w s t (fun _ => Eq) (hoist ss) (hoist ss) := by
  refine forM fun a ha w' hle => ?_
  have hwithin := hss a ha
  cases a with
  | funcDecl span fn =>
    have hst' := hle.2.1 _ _ hst
    simp only [Stmt.Within, Visit.ofStmt, Visit.within_cons, Visit.names] at hwithin
    dsimp only
    cases hname : fn.name with
    | none => exact pure rfl
    | some name =>
      refine (ofScopes hst' fun hc => newClosure hc hwithin.2).bind fun w₁ v v' hle₁ hv => ?_
      exact define (hle₁.2.1 _ _ hst') (hwithin.1 name (by simp [hname])) hv true
  | _ => exact pure rfl

theorem checkCall {c c' : Closure} (hfn : c'.fn = c.fn) (span : Span) :
    Sim names w s t (fun _ => Eq) (checkCall c span) (checkCall c' span) := by
  refine get fun m₁ m₂ hp _ => ?_
  have hroom : m₁.callLimit ≤ m₁.depth ↔ m₂.callLimit ≤ m₂.depth := by
    have := hp.room
    omega
  simp only [hroom, hfn]
  split
  · exact raise (.callDepth span)
  · split
    · exact raise (.unsupported _ _)
    · exact pure rfl

theorem argument (p : Param) (h : w.RelList vs vs') :
    Sim names w s t (fun w a b => w.Rel a.1 b.1 ∧ w.RelList a.2 b.2) (argument p vs)
      (argument p vs') := by
  unfold Eval.argument
  split
  · exact (newArray h).map fun _ _ _ _ hv => ⟨hv, .nil⟩
  · exact pure ⟨h.headD, h.tail⟩

theorem receiverItems (fn : Native) (hv : w.Rel v v') (span : Span) :
    Sim names w s t (fun w a b => w.cells a.1 b.1 ∧ w.RelList a.2 b.2) (receiverItems fn v span)
      (receiverItems fn v' span) := by
  cases hv with
  | @plain v hp =>
    cases v with
    | array => cases hp
    | undefined | null | bool | number | bigint | str | object | function => exact typeError _ _
  | array hc => exact (items hc).map fun _ _ _ hle hvs => ⟨hle.1 _ _ hc, hvs⟩
  | object | function => exact typeError _ _

theorem receiverText (fn : Native) (hv : w.Rel v v') (span : Span) :
    Sim names w s t (fun _ => Eq) (receiverText fn v span) (receiverText fn v' span) := by
  cases hv with
  | @plain v hp =>
    cases v with
    | str => exact pure rfl
    | undefined | null | bool | number | bigint | array | object | function => exact typeError _ _
  | array | object | function => exact typeError _ _

theorem textOr (missing : String) (hv : w.Rel v v') :
    Sim names w s t (fun _ => Eq) (textOr missing v) (textOr missing v') := by
  have hundefined : (v == .undefined) = (v' == .undefined) := by cases hv <;> rfl
  unfold Eval.textOr
  rw [hundefined]
  split
  · exact pure rfl
  · exact text hv

theorem joinedText (hv : w.Rel v v') :
    Sim names w s t (fun _ => Eq) (joinedText v) (joinedText v') := by
  unfold Eval.joinedText
  rw [hv.isNullish]
  split
  · exact pure rfl
  · exact text hv

/-- Texts of values that stand for each other, one by one. -/
theorem texts {f : Value → Eval String} (h : w.RelList vs vs')
    (hf : ∀ {w' : World} {v v' : Value}, w'.Rel v v' → Sim names w' s t (fun _ => Eq) (f v) (f v')) :
    Sim names w s t (fun _ => Eq) (vs.mapM f) (vs'.mapM f) := by
  refine (mapM (R := fun _ => Eq) (fun _ hab => hab) h fun v v' hv w' hle => hf (hv.mono hle)).imp ?_
  intro w' a b hab
  rwa [List.forall₂_eq_eq_eq] at hab

theorem callNative (fn : Native) (hv : w.Rel v v')
    (hvs : w.RelList vs vs') (span : Span) :
    Sim names w s t World.Rel (callNative fn v vs span) (callNative fn v' vs' span) := by
  have hfirst := hvs.headD
  cases fn with
  | isArray =>
    refine pure ?_
    generalize vs.headD .undefined = a at hfirst
    generalize vs'.headD .undefined = a' at hfirst
    cases hfirst <;> exact .plain rfl
  | isNaN =>
    unfold Eval.callNative
    dsimp only
    rw [hfirst.number?]
    exact pure (.plain rfl)
  | stringify =>
    refine get fun m₁ m₂ _ ha => ?_
    rw [ha.json hfirst]
    split
    · exact pure (.plain rfl)
    · exact pure (.plain rfl)
    · exact typeError _ _
  | error =>
    refine (textOr "" hfirst).bind fun w' a b _ hab => ?_
    obtain rfl := hab
    exact newObject (.cons ⟨rfl, .plain rfl⟩ (.cons ⟨rfl, .plain rfl⟩ .nil))
  | string => exact (text hfirst).map fun _ _ _ _ hab => hab ▸ .plain rfl
  | log =>
    refine (texts hvs text).bind fun w' a b _ hab => ?_
    obtain rfl := hab
    exact (output _).bind fun _ _ _ _ _ => pure (.plain rfl)
  | push =>
    refine (receiverItems .push hv span).bind fun w' a b hle hab => ?_
    have hargs := hvs.mono hle
    refine (write hab.1 (.items (hab.2.append hargs))).bind fun w₁ _ _ _ _ => ?_
    rw [hab.2.length, hvs.length]
    exact pure (.plain rfl)
  | join =>
    refine (receiverItems .join hv span).bind fun w' a b hle hab => ?_
    refine (textOr "," (hfirst.mono hle)).bind fun w₁ sep sep' hle₁ hsep => ?_
    obtain rfl := hsep
    exact (texts (hab.2.mono hle₁) joinedText).map fun _ _ _ _ h => h ▸ .plain rfl
  | arrayIncludes =>
    refine (receiverItems .arrayIncludes hv span).bind fun w' a b hle hab => ofAgree fun _ _ ha => ?_
    dsimp only
    rw [hab.2.any_sameValueZero ha.oneCell (hfirst.mono hle)]
    exact pure (.plain rfl)
  | stringIncludes =>
    refine (receiverText .stringIncludes hv span).bind fun w' a b hle hab => ?_
    obtain rfl := hab
    exact (text (hfirst.mono hle)).map fun _ _ _ _ h => h ▸ .plain rfl
  | toUpperCase => exact (receiverText .toUpperCase hv span).map fun _ _ _ _ h => h ▸ .plain rfl
  | toLowerCase => exact (receiverText .toLowerCase hv span).map fun _ _ _ _ h => h ▸ .plain rfl

/-! ## Errors as values -/

theorem liftResult (h : w.RelResult r r') :
    Sim names w s t World.RelFlow (Eval.lift r) (Eval.lift r') := by
  cases r with
  | ok f =>
    cases r' with
    | ok f' => exact pure h
    | error => exact h.elim
  | error e =>
    cases r' with
    | ok => exact h.elim
    | error e' => exact raise h

theorem recover (hst : w.chains s t) {run : CatchClause → Value → Eval Flow}
    (h : w.RelResult r r') {clause : Option CatchClause}
    (hrun : ∀ c ∈ clause, ∀ w' s' t' v v', w'.scopes s' t' → w'.Rel v v' →
      Sim names w' s' t' World.RelFlow (run c v) (run c v')) :
    Sim names w s t World.RelResult (recover run r clause) (recover run r' clause) := by
  cases clause with
  | none => cases r <;> cases r' <;> exact pure h
  | some c =>
    cases r with
    | ok =>
      cases r' with
      | ok => exact pure h
      | error => exact h.elim
    | error e =>
      cases r' with
      | ok => exact h.elim
      | error e' =>
        have he : w.RelError e e' := h
        simp only [Eval.recover, he.isCatchable]
        split
        · refine (caught he).bind fun w₁ v v' hle hv => attempt ?_
          refine withScope (hle.2.2 _ _ hst) fun w₂ s' t' hle₂ hscope => ?_
          exact hrun c rfl w₂ s' t' v v' hscope (hv.mono hle₂)
        · exact pure h

theorem finish (hst : w.chains s t) {run : List Stmt → Eval Flow}
    (h : w.RelResult r r') {finalizer : Option (List Stmt)}
    (hrun : ∀ body ∈ finalizer, ∀ w' s' t', w'.scopes s' t' →
      Sim names w' s' t' World.RelFlow (run body) (run body)) :
    Sim names w s t World.RelFlow (finish run r finalizer) (finish run r' finalizer) := by
  cases finalizer with
  | none => exact liftResult h
  | some body =>
    refine (withScope hst fun w₁ s' t' _ hs => hrun body rfl w₁ s' t' hs).bind ?_
    intro w₁ f f' hle hf
    cases hf with
    | normal => exact liftResult (h.mono hle)
    | ret hv => exact pure (.ret hv)
    | breakTo label => exact pure (.breakTo label)
    | continueTo label => exact pure (.continueTo label)

end Sim

end MatchChain
