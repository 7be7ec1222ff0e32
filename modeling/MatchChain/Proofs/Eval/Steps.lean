import MatchChain.Proofs.Eval.Balance
import MatchChain.Syntax.Visit

/-!
# More steps change nothing

Every operation of the machine is balanced, and every function of the interpreter is steady: by induction on
the number of steps it leaves the machine balanced, and with more steps it does the same wherever it ended.
-/

set_option autoImplicit false

namespace MatchChain

/-- The name that a statement declares before any statement of its list runs. -/
def Stmt.funcName? : Stmt → Option String
  | .funcDecl _ fn => fn.name
  | _ => none

namespace Eval

open Machine

/-! ## Operations -/

namespace Balanced

variable {α β : Type} {D : String → Prop}

theorem mapM {f : α → Eval β} (h : ∀ a, Balanced D (f a)) (as : List α) : Balanced D (as.mapM f) :=
  (Steady.mapM (fun a => .refl (h a)) as).balanced

theorem text (v : Value) : Balanced D (Eval.text v) := unmoved fun _ => rfl

theorem items (cell : Nat) : Balanced D (Eval.items cell) := unmoved fun _ => rfl

theorem fields (cell : Nat) : Balanced D (Eval.fields cell) := unmoved fun _ => rfl

theorem lookup? (name : String) : Balanced D (Eval.lookup? name) := unmoved fun _ => rfl

theorem typeError (fault : TypeFault) (span : Span) : Balanced D (Eval.typeError fault span : Eval α) := raise _

theorem alloc (c : Cell) : Balanced D (Eval.alloc c) :=
  of_run (fun _ => rfl) (fun _ => ⟨rfl, rfl, rfl, rfl⟩) (fun _ => rfl) fun _ => rfl

theorem write (cell : Nat) (c : Cell) : Balanced D (Eval.write cell c) :=
  of_run (fun _ => rfl) (fun _ => ⟨rfl, rfl, rfl, rfl⟩) (fun _ => rfl) fun _ => rfl

theorem output (line : String) : Balanced D (modify fun m => { m with output := m.output.push line } : Eval PUnit) :=
  of_run (fun _ => rfl) (fun _ => ⟨rfl, rfl, rfl, rfl⟩) (fun _ => rfl) fun _ => rfl

theorem newArray (values : List Value) : Balanced D (Eval.newArray values) := bind (alloc _) fun _ => pure _

theorem newObject (props : Fields) : Balanced D (Eval.newObject props) := bind (alloc _) fun _ => pure _

theorem newMethod (fn : Native) (receiver : Value) : Balanced D (Eval.newMethod fn receiver) :=
  bind (alloc _) fun _ => pure _

theorem newClosure (fn : Func) : Balanced D (Eval.newClosure fn) :=
  bind get fun _ => bind (alloc _) fun _ => pure _

theorem define {name : String} (hname : D name) (value : Value) (isMutable : Bool) :
    Balanced D (Eval.define name value isMutable) := fun m => .define hname m _

theorem lookup (name : String) (span : Span) : Balanced D (Eval.lookup name span) := by
  refine bind (lookup? name) fun v => ?_
  cases v with
  | none => exact raise _
  | some v => exact pure v

theorem assign (name : String) (value : Value) (span : Span) : Balanced D (Eval.assign name value span) := by
  intro m
  rw [run_assign]
  cases howner : m.scopes.owner? m.env.current name with
  | none => exact .refl m
  | some found =>
    obtain ⟨owner, v⟩ := found
    dsimp only
    split
    · rename_i hmutable
      exact .assign (Scopes.binding_of_ownerWithin howner) hmutable value
    · exact .refl m

theorem method (receiver : Value) (fn : Option Native) : Balanced D (Eval.method receiver fn) := by
  cases fn with
  | none => exact pure _
  | some fn => exact newMethod fn receiver

theorem getProperty (target : Value) (key : String) (span : Span) : Balanced D (Eval.getProperty target key span) := by
  unfold Eval.getProperty
  cases target with
  | undefined | null => exact bind (text _) fun _ => typeError _ span
  | array cell =>
    refine bind (items cell) fun values => ?_
    split
    · exact pure _
    · split
      · exact pure _
      · exact method _ _
  | str s =>
    dsimp only
    split
    · exact pure _
    · split
      · exact pure _
      · exact method _ _
  | object cell => exact bind (fields cell) fun _ => pure _
  | bool | number | bigint | function => exact pure _

theorem setProperty (target : Value) (key : String) (value : Value) (span : Span) :
    Balanced D (Eval.setProperty target key value span) := by
  unfold Eval.setProperty
  cases target with
  | undefined | null => exact bind (text _) fun _ => typeError _ span
  | object cell => exact bind (fields cell) fun _ => write cell _
  | array cell =>
    refine bind (items cell) fun values => ?_
    split
    · refine bind get fun m => ?_
      dsimp only
      split
      · exact bind (typeError _ span) fun _ => write cell _
      · exact write cell _
    · split
      · exact write cell _
      · exact pure _
  | bool | number | bigint | str | function => exact pure _

theorem iterate (v : Value) (span : Span) : Balanced D (Eval.iterate v span) := by
  unfold Eval.iterate
  split
  · exact items _
  · exact pure _
  · exact typeError _ span

theorem restOf (v : Value) (taken : List String) : Balanced D (Eval.restOf v taken) := by
  unfold Eval.restOf
  split
  · exact bind (fields _) fun _ => newObject _
  · exact newObject _

theorem caught (e : EvalError) : Balanced D (Eval.caught e) := by
  unfold Eval.caught
  split
  · exact pure _
  · exact newObject _

theorem spreadFields (v : Value) : Balanced D (Eval.spreadFields v) := by
  unfold Eval.spreadFields
  split
  · exact fields _
  · exact bind (items _) fun _ => pure _
  · exact pure _

theorem checkParts (v : Value) (span : Span) : Balanced D (Eval.checkParts v span) := by
  unfold Eval.checkParts
  split
  · exact bind (text v) fun _ => typeError _ span
  · exact pure _

theorem argument (p : Param) (values : List Value) : Balanced D (Eval.argument p values) := by
  unfold Eval.argument
  split
  · exact bind (newArray values) fun _ => pure _
  · exact pure _

theorem readPlace (span : Span) (p : Place) : Balanced D (Eval.readPlace span p) := by
  cases p with
  | «variable» name => exact lookup name span
  | property target key => exact getProperty target key span

theorem writePlace (span : Span) (value : Value) (p : Place) : Balanced D (Eval.writePlace span value p) := by
  cases p with
  | «variable» name => exact assign name value span
  | property target key => exact setProperty target key value span

theorem hoist {ss : List Stmt} (h : ∀ s ∈ ss, ∀ x ∈ s.funcName?, D x) : Balanced D (Eval.hoist ss) := by
  refine (Steady.forM fun s hs => .refl ?_).balanced
  have hnames := h s hs
  split
  · split
    · rename_i name hname
      exact bind (newClosure _) fun _ => define (hnames name hname) _ true
    · exact pure _
  · exact pure _

theorem receiverItems (fn : Native) (receiver : Value) (span : Span) :
    Balanced D (Eval.receiverItems fn receiver span) := by
  unfold Eval.receiverItems
  split
  · exact bind (items _) fun _ => pure _
  · exact typeError _ span

theorem receiverText (fn : Native) (receiver : Value) (span : Span) :
    Balanced D (Eval.receiverText fn receiver span) := by
  unfold Eval.receiverText
  split
  · exact pure _
  · exact typeError _ span

theorem textOr (missing : String) (v : Value) : Balanced D (Eval.textOr missing v) := by
  unfold Eval.textOr
  split
  · exact pure _
  · exact text v

theorem joinedText (v : Value) : Balanced D (Eval.joinedText v) := by
  unfold Eval.joinedText
  split
  · exact pure _
  · exact text v

theorem callNative (fn : Native) (receiver : Value) (args : List Value) (span : Span) :
    Balanced D (Eval.callNative fn receiver args span) := by
  unfold Eval.callNative
  cases fn with
  | isArray | isNaN => exact pure _
  | stringify =>
    refine bind get fun m => ?_
    split
    · exact pure _
    · exact pure _
    · exact typeError _ span
  | error => exact bind (textOr _ _) fun _ => newObject _
  | string => exact bind (text _) fun _ => pure _
  | log => exact bind (mapM text args) fun _ => bind (output _) fun _ => pure _
  | push => exact bind (receiverItems _ _ _) fun _ => bind (write _ _) fun _ => pure _
  | join =>
    exact bind (receiverItems _ _ _) fun _ => bind (textOr _ _) fun _ => bind (mapM joinedText _) fun _ => pure _
  | arrayIncludes => exact bind (receiverItems _ _ _) fun _ => pure _
  | stringIncludes => exact bind (receiverText _ _ _) fun _ => bind (text _) fun _ => pure _
  | toUpperCase | toLowerCase => exact bind (receiverText _ _ _) fun _ => pure _

end Balanced

namespace Steady

variable {D D' : String → Prop}

theorem recover {f g : CatchClause → Value → Eval Flow} (h : ∀ c v, Steady D' (f c v) (g c v))
    (result : Except EvalError Flow) (clause : Option CatchClause) :
    Steady D (Eval.recover f result clause) (Eval.recover g result clause) := by
  rcases result with e | flow
  · cases clause with
    | none => exact refl (.pure _)
    | some c =>
      rw [Eval.recover, Eval.recover]
      split
      · exact after (.caught e) fun v => attempt (withScope (h c v))
      · exact refl (.pure _)
  · exact refl (.pure _)

theorem finish {f g : List Stmt → Eval Flow} (h : ∀ ss, Steady D' (f ss) (g ss)) (result : Except EvalError Flow)
    (finalizer : Option (List Stmt)) : Steady D (Eval.finish f result finalizer) (Eval.finish g result finalizer) := by
  cases finalizer with
  | none => exact refl (.lift result)
  | some body =>
    refine andThen (withScope (h body)) fun flow => ?_
    cases flow with
    | normal => exact .lift result
    | ret _ | breakTo _ | continueTo _ => exact .pure _

end Steady

/-! ## The interpreter -/

/-- Every function of the interpreter, nesting up to `n` steps, is steady, and goes on with `k`. Expressions declare
    nothing where they stand, and patterns no more than the names that they bind. -/
structure AllSteady (n k : Nat) : Prop where
  expr : ∀ {D} e, Steady D (Eval.expr n e) (Eval.expr k e)
  link : ∀ {D} e, Steady D (Eval.link n e) (Eval.link k e)
  callee : ∀ {D} e, Steady D (Eval.callee n e) (Eval.callee k e)
  args : ∀ {D} es, Steady D (Eval.args n es) (Eval.args k es)
  prop : ∀ {D} fs p, Steady D (Eval.prop n fs p) (Eval.prop k fs p)
  propKey : ∀ {D} key, Steady D (Eval.propKey n key) (Eval.propKey k key)
  place : ∀ {D} e, Steady D (Eval.place n e) (Eval.place k e)
  assignment : ∀ {D} span op target value,
    Steady D (Eval.assignment n span op target value) (Eval.assignment k span op target value)
  call : ∀ {D} f this values span, Steady D (Eval.call n f this values span) (Eval.call k f this values span)
  callClosure : ∀ {D} c this values span,
    Steady D (Eval.callClosure n c this values span) (Eval.callClosure k c this values span)
  params : ∀ ps values, Steady anyName (Eval.params n ps values) (Eval.params k ps values)
  withDefault : ∀ {D} v e, Steady D (Eval.withDefault n v e) (Eval.withDefault k v e)
  bindPattern : ∀ {D : String → Prop} {target} v isMutable, (∀ x ∈ target.names, D x) →
    Steady D (Eval.bindPattern n target v isMutable) (Eval.bindPattern k target v isMutable)
  bindElems : ∀ {D : String → Prop} {es} vs isMutable, (∀ x ∈ Binding.elemNames es, D x) →
    Steady D (Eval.bindElems n es vs isMutable) (Eval.bindElems k es vs isMutable)
  bindProps : ∀ {D : String → Prop} {ps} span v taken isMutable, (∀ x ∈ Binding.propNames ps, D x) →
    Steady D (Eval.bindProps n span v taken ps isMutable) (Eval.bindProps k span v taken ps isMutable)
  construct : ∀ {D} span fn arguments,
    Steady D (Eval.construct n span fn arguments) (Eval.construct k span fn arguments)
  stmts : ∀ ss, Steady anyName (Eval.stmts n ss) (Eval.stmts k ss)
  stmt : ∀ s, Steady anyName (Eval.stmt n s) (Eval.stmt k s)
  loop : ∀ cond body label, Steady anyName (Eval.loop n cond body label) (Eval.loop k cond body label)
  tryCatch : ∀ body handler finalizer,
    Steady anyName (Eval.tryCatch n body handler finalizer) (Eval.tryCatch k body handler finalizer)
  catchBody : ∀ h v, Steady anyName (Eval.catchBody n h v) (Eval.catchBody k h v)

namespace AllSteady

/-- With no steps at all, everything is used up at once. -/
theorem zero (k : Nat) : AllSteady 0 k := by
  constructor <;> intros <;> exact .exhausted _

section Step

variable {n k : Nat} {D : String → Prop} (h : AllSteady n k)

include h

/-! ### Expressions and assignments -/

theorem expr_succ (e : Expr) : Steady D (Eval.expr (n + 1) e) (Eval.expr (k + 1) e) := by
  cases e with
  | ident span name => exact .refl (.lookup name span)
  | str | num | bigint | bool | null => exact .refl (.pure _)
  | thisRef => exact .refl (.bind .get fun _ => .pure _)
  | func span fn => exact .refl (.newClosure fn)
  | spread => exact .refl (.raise _)
  | template _ _ holes =>
    rw [Eval.expr, Eval.expr]
    exact .andThen (.mapM (fun hole => .andThen (h.expr hole) fun _ => .text _) holes) fun _ => .pure _
  | array _ items =>
    rw [Eval.expr, Eval.expr]
    exact .andThen (h.args items) fun _ => .newArray _
  | object _ props =>
    rw [Eval.expr, Eval.expr]
    exact .andThen (.foldlM h.prop props []) fun _ => .newObject _
  | unary span op operand =>
    unfold Eval.expr
    split
    all_goals first
      | exact .refl (.bind (.lookup? _) fun _ => .pure _)
      | exact .andThen (h.expr _) fun _ => .bind .get fun _ => .lift _
      | (rename_i heq; cases heq)
  | binary span op left right =>
    rw [Eval.expr, Eval.expr]
    refine .bind (h.expr left) fun a => ?_
    split
    · exact .refl (.pure a)
    · exact h.expr right
    · exact .andThen (h.expr right) fun _ => .bind .get fun _ => .lift _
  | conditional _ cond thenExpr elseExpr =>
    rw [Eval.expr, Eval.expr]
    refine .bind (h.expr cond) fun v => ?_
    split
    · exact h.expr thenExpr
    · exact h.expr elseExpr
  | assign span op target value => exact h.assignment span op target value
  | member | index | call =>
    rw [Eval.expr, Eval.expr]
    exact .andThen (h.link _) fun _ => .pure _
  | construct span fn arguments => exact h.construct span fn arguments

theorem link_succ (e : Expr) : Steady D (Eval.link (n + 1) e) (Eval.link (k + 1) e) := by
  cases e with
  | member span object property optional =>
    rw [Eval.link, Eval.link]
    refine .andThen (h.link object) fun target => ?_
    cases target with
    | none => exact .pure _
    | some target =>
      dsimp only
      split
      · exact .pure _
      · exact .bind (.getProperty target property span) fun _ => .pure _
  | index span object key optional =>
    rw [Eval.link, Eval.link]
    refine .bind (h.link object) fun target => ?_
    cases target with
    | none => exact .refl (.pure _)
    | some target =>
      dsimp only
      split
      · exact .refl (.pure _)
      · exact .andThen (h.expr key) fun _ => .bind (.text _) fun _ =>
          .bind (.getProperty target _ span) fun _ => .pure _
  | call span fn arguments optional =>
    rw [Eval.link, Eval.link]
    refine .bind (h.callee fn) fun found => ?_
    cases found with
    | none => exact .refl (.pure _)
    | some found =>
      obtain ⟨function, receiver⟩ := found
      dsimp only
      split
      · exact .refl (.pure _)
      · exact .bind (h.args arguments) fun values => .andThen (h.call function receiver values span) fun _ => .pure _
  | _ =>
    rw [Eval.link, Eval.link]
    · exact .andThen (h.expr _) fun _ => .pure _
    all_goals (intros; contradiction)

theorem callee_succ (e : Expr) : Steady D (Eval.callee (n + 1) e) (Eval.callee (k + 1) e) := by
  cases e with
  | member span object property optional =>
    rw [Eval.callee, Eval.callee]
    refine .andThen (h.link object) fun receiver => ?_
    cases receiver with
    | none => exact .pure _
    | some receiver =>
      dsimp only
      split
      · exact .pure _
      · exact .bind (.getProperty receiver property span) fun _ => .pure _
  | index span object key optional =>
    rw [Eval.callee, Eval.callee]
    refine .bind (h.link object) fun receiver => ?_
    cases receiver with
    | none => exact .refl (.pure _)
    | some receiver =>
      dsimp only
      split
      · exact .refl (.pure _)
      · exact .andThen (h.expr key) fun _ => .bind (.text _) fun _ =>
          .bind (.getProperty receiver _ span) fun _ => .pure _
  | _ =>
    rw [Eval.callee, Eval.callee]
    · exact .andThen (h.link _) fun _ => .pure _
    all_goals (intros; contradiction)

theorem assignment_succ (span : Span) (op : AssignOp) (target value : Expr) :
    Steady D (Eval.assignment (n + 1) span op target value) (Eval.assignment (k + 1) span op target value) := by
  rw [Eval.assignment, Eval.assignment]
  refine .bind (h.place target) fun p => ?_
  have hstore : ∀ v, Balanced D (do writePlace span v p; return v : Eval Value) := fun v =>
    .bind (.writePlace span v p) fun _ => .pure v
  cases op.binary? with
  | none => exact .andThen (h.expr value) hstore
  | some binary =>
    refine .after (.readPlace span p) fun current => ?_
    dsimp only
    split
    · exact .refl (.pure current)
    · exact .andThen (h.expr value) hstore
    · exact .andThen (h.expr value) fun _ => .bind .get fun _ => .bind (.lift _) hstore

/-! ### Calls -/

theorem construct_succ (span : Span) (fn : Expr) (arguments : List Expr) :
    Steady D (Eval.construct (n + 1) span fn arguments) (Eval.construct (k + 1) span fn arguments) := by
  rw [Eval.construct, Eval.construct]
  refine .bind (h.expr fn) fun constructor => .bind (h.args arguments) fun values => ?_
  split
  · refine .after .get fun m => ?_
    split
    · exact .refl (.callNative _ _ values span)
    · exact .refl (.typeError _ span)
    · exact .after (.newObject []) fun created => .andThen (h.call _ created values span) fun _ => .pure _
  · exact .refl (.bind (.text _) fun _ => .typeError _ span)

/-! ### Binding patterns -/

theorem bindElems_succ {es : List BindingElem} (vs : List Value) (isMutable : Bool)
    (hes : ∀ x ∈ Binding.elemNames es, D x) :
    Steady D (Eval.bindElems (n + 1) es vs isMutable) (Eval.bindElems (k + 1) es vs isMutable) := by
  cases es with
  | nil => exact .refl (.pure _)
  | cons e es =>
    cases e with
    | hole => exact h.bindElems vs.tail isMutable hes
    | item target default =>
      obtain ⟨htarget, hes⟩ := List.forall_mem_append.mp hes
      exact .bind (h.withDefault _ default) fun v =>
        .bind (h.bindPattern v isMutable htarget) fun _ => h.bindElems vs.tail isMutable hes
    | rest target =>
      obtain ⟨htarget, hes⟩ := List.forall_mem_append.mp hes
      exact .after (.newArray vs) fun v =>
        .bind (h.bindPattern v isMutable htarget) fun _ => h.bindElems [] isMutable hes

theorem bindProps_succ {ps : List BindingProp} (span : Span) (v : Value) (taken : List String) (isMutable : Bool)
    (hps : ∀ x ∈ Binding.propNames ps, D x) :
    Steady D (Eval.bindProps (n + 1) span v taken ps isMutable) (Eval.bindProps (k + 1) span v taken ps isMutable) := by
  cases ps with
  | nil => exact .refl (.pure _)
  | cons p ps =>
    cases p with
    | rest span' name =>
      obtain ⟨hname, hps⟩ := List.forall_mem_cons.mp hps
      exact .after (.restOf v taken) fun rest => .after (.define hname rest isMutable) fun _ =>
        h.bindProps span v taken isMutable hps
    | item key target default =>
      obtain ⟨htarget, hps⟩ := List.forall_mem_append.mp hps
      exact .bind (h.propKey key) fun name => .after (.getProperty v name span) fun part =>
        .bind (h.withDefault part default) fun x => .bind (h.bindPattern x isMutable htarget)
          fun _ => h.bindProps span v (name :: taken) isMutable hps

/-! ### Statements -/

theorem varDecl_succ {span : Span} {kind : VarKind} {ds : List Declarator}
    (hds : ∀ d ∈ ds, ∀ x ∈ d.target.names, D x) :
    Steady D (Eval.stmt (n + 1) (.varDecl span kind ds)) (Eval.stmt (k + 1) (.varDecl span kind ds)) := by
  rw [Eval.stmt, Eval.stmt]
  refine .andThen (.forM fun d hd => ?_) fun _ => .pure _
  cases d.init with
  | none => exact .after (.pure _) fun v => h.bindPattern v _ (hds d hd)
  | some e => exact .bind (h.expr e) fun v => h.bindPattern v _ (hds d hd)

theorem stmt_succ (s : Stmt) : Steady anyName (Eval.stmt (n + 1) s) (Eval.stmt (k + 1) s) := by
  cases s with
  | expr _ e =>
    rw [Eval.stmt, Eval.stmt]
    exact .andThen (h.expr e) fun _ => .pure _
  | varDecl => exact h.varDecl_succ fun _ _ _ _ => trivial
  | funcDecl | importDecl | empty | breakTo | continueTo => exact .refl (.pure _)
  | ret _ value =>
    cases value with
    | none => exact .refl (.pure _)
    | some e => exact .andThen (h.expr e) fun _ => .pure _
  | ifElse _ cond thenBranch elseBranch =>
    cases elseBranch with
    | none =>
      rw [Eval.stmt, Eval.stmt]
      refine .bind (h.expr cond) fun v => ?_
      split
      · exact h.stmt thenBranch
      · exact .refl (.pure _)
    | some otherwise =>
      rw [Eval.stmt, Eval.stmt]
      refine .bind (h.expr cond) fun v => ?_
      split
      · exact h.stmt thenBranch
      · exact h.stmt otherwise
  | block _ body =>
    rw [Eval.stmt, Eval.stmt]
    exact .withScope (h.stmts body)
  | labeled _ label body =>
    cases body with
    | whileLoop _ cond body => exact h.loop cond body (some label)
    | _ => exact .andThen (h.stmt _) fun _ => .pure _
  | throwing _ e =>
    rw [Eval.stmt, Eval.stmt]
    exact .andThen (h.expr e) fun _ => .raise _
  | tryCatch _ body handler finalizer => exact h.tryCatch body handler finalizer
  | whileLoop _ cond body => exact h.loop cond body none

theorem succ : AllSteady (n + 1) (k + 1) where
  expr := h.expr_succ
  link := h.link_succ
  callee := h.callee_succ
  args es := by
    rw [Eval.args, Eval.args]
    refine .andThen (.mapM (fun e => ?_) es) fun _ => .pure _
    split
    · exact .andThen (h.expr _) fun _ => .iterate _ _
    · exact .andThen (h.expr _) fun _ => .pure _
  prop fs p := by
    cases p with
    | init _ key value _ =>
      rw [Eval.prop, Eval.prop]
      exact .bind (h.propKey key) fun _ => .andThen (h.expr value) fun _ => .pure _
    | spread _ source =>
      rw [Eval.prop, Eval.prop]
      exact .andThen (h.expr source) fun _ => .bind (.spreadFields _) fun _ => .pure _
  propKey key := by
    cases key with
    | computed e =>
      rw [Eval.propKey, Eval.propKey]
      exact .andThen (h.expr e) fun _ => .text _
    | ident | str | num => exact .refl (.pure _)
  place e := by
    cases e with
    | ident => exact .refl (.pure _)
    | member _ object property _ =>
      rw [Eval.place, Eval.place]
      exact .andThen (h.expr object) fun _ => .pure _
    | index _ object key _ =>
      rw [Eval.place, Eval.place]
      exact .bind (h.expr object) fun _ => .andThen (h.expr key) fun _ => .bind (.text _) fun _ => .pure _
    | _ => exact .refl (.raise _)
  assignment := h.assignment_succ
  call f this values span := by
    cases f with
    | function cell =>
      rw [Eval.call, Eval.call]
      refine .after .get fun m => ?_
      split
      · exact .refl (.callNative _ _ values span)
      · exact h.callClosure _ this values span
      · exact .refl (.bind (.text _) fun _ => .typeError _ span)
    | _ => exact .refl (.bind (.text _) fun _ => .typeError _ span)
  callClosure c this values span := by
    rw [Eval.callClosure, Eval.callClosure]
    refine .withFrame (.bind (h.params c.fn.params values) fun _ => ?_) c _ span
    split
    · exact h.expr _
    · exact .andThen (h.stmts _) fun _ => .pure _
  params ps values := by
    cases ps with
    | nil => exact .refl (.pure _)
    | cons p ps =>
      rw [Eval.params, Eval.params]
      refine .after (.argument p values) fun found => ?_
      obtain ⟨value, others⟩ := found
      exact .bind (h.withDefault value p.default) fun v =>
        .bind (h.bindPattern v true fun _ _ => trivial) fun _ => h.params ps others
  withDefault v e := by
    cases v <;> cases e
    case undefined.some e => exact h.expr e
    all_goals exact .refl (.pure _)
  bindPattern := by
    intro D target v isMutable htarget
    cases target with
    | ident span name => exact .refl (.define (htarget name (List.mem_singleton.mpr rfl)) v isMutable)
    | array span elems =>
      rw [Eval.bindPattern, Eval.bindPattern]
      exact .after (.iterate v span) fun values => h.bindElems values isMutable htarget
    | object span ps =>
      rw [Eval.bindPattern, Eval.bindPattern]
      exact .after (.checkParts v span) fun _ => h.bindProps span v [] isMutable htarget
  bindElems := h.bindElems_succ
  bindProps := h.bindProps_succ
  construct := h.construct_succ
  stmts ss := by
    rw [Eval.stmts, Eval.stmts]
    exact .after (.hoist fun _ _ _ _ => trivial) fun _ => .sequence h.stmt ss
  stmt := h.stmt_succ
  loop cond body label := by
    rw [Eval.loop, Eval.loop]
    refine .bind (h.expr cond) fun v => ?_
    split
    · refine .bind (h.stmt body) fun flow => ?_
      split
      · exact h.loop cond body label
      · exact .refl (.pure _)
    · exact .refl (.pure _)
  tryCatch body handler finalizer := by
    rw [Eval.tryCatch, Eval.tryCatch]
    exact .bind (.attempt (.withScope (h.stmts body))) fun result =>
      .bind (.recover h.catchBody result handler) fun result => .finish h.stmts result finalizer
  catchBody c v := by
    rw [Eval.catchBody, Eval.catchBody]
    refine .bind ?_ fun _ => h.stmts c.body
    cases c.param with
    | none => exact .refl (.pure _)
    | some target => exact h.bindPattern v true fun _ _ => trivial

end Step

end AllSteady

/-- The interpreter is steady, whatever number of steps it goes on with. -/
theorem allSteady : ∀ {n k : Nat}, n ≤ k → AllSteady n k
  | 0, k, _ => .zero k
  | _ + 1, _ + 1, h => (allSteady (Nat.le_of_succ_le_succ h)).succ

/-- The interpreter with any number of steps. -/
theorem allSteady_self (n : Nat) : AllSteady n n := allSteady (Nat.le_refl n)

end Eval

/-! ## Runs of expressions and statements -/

/-- However the run of an expression or a statement ends, the machine stands in the same chain of scopes, with
    the same `this` and the same number of open calls, and had no more calls open on the way than it may. A
    block, moreover, adds no name to a scope that was there before it, removes none, and changes no constant. -/
theorem Machine.run_balance_isolated (m : Machine) (steps : Nat) :
    (∀ e, m.Balance ((Eval.expr steps e).run.run m).2) ∧ (∀ s, m.Balance ((Eval.stmt steps s).run.run m).2) ∧
      ∀ span body, m.scopes.Isolated m.scopes.count ((Eval.stmt steps (.block span body)).run.run m).2.scopes := by
  have hsteady := Eval.allSteady_self steps
  refine ⟨fun e => ((hsteady.expr e).balanced m : m.Declares anyName _).toBalance,
    fun s => ((hsteady.stmt s).balanced m).toBalance, ?_⟩
  intro span body
  cases steps with
  | zero => exact .of_binding fun _ _ _ => rfl
  | succ n =>
    rw [Eval.stmt, Eval.run_withScope]
    have hbody := ((Eval.allSteady_self n).stmts body).balanced m.entered
    exact hbody.toBalance.isolated_of_alloc rfl rfl (Nat.le_refl _)

/-- The constant `c` keeps its value and the scope of `c` and `v` gets no name, though the block assigns `v` and
    tries to assign `c`. -/
example : ∃ m : Machine, m.scopes.binding 0 "c" = some ⟨.null, false⟩ ∧
    let block : Stmt := .block default [.expr default (.assign default .assign (.ident default "v") (.bool default true)),
      .varDecl default .constVar [⟨default, .ident default "w", some (.null default)⟩],
      .expr default (.assign default .assign (.ident default "c") (.bool default true))]
    let m' := ((Eval.stmt 8 block).run.run m).2
    m'.scopes.binding 0 "c" = some ⟨.null, false⟩ ∧ m'.scopes.binding 0 "v" = some ⟨.bool true, true⟩ ∧
      m'.scopes.binding 0 "w" = none :=
  ⟨{ scopes := ⟨#[{ bindings := [("c", ⟨.null, false⟩), ("v", ⟨.null, true⟩)] }]⟩ }, rfl, rfl, rfl, rfl⟩

end MatchChain
