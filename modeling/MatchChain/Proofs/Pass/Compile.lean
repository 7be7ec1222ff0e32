import MatchChain.Pass.Compile
import MatchChain.Proofs.Code.Compilable
import MatchChain.Proofs.Code.Shape
import MatchChain.Proofs.Pass.Spine

/-!
# One attempt to compile

`compile` offers a call: it is no chain, or no code is generated and a warning is queued, or there is
code. Code for a value has the face of the chain it replaces, and is no chain itself.
-/

set_option autoImplicit false

namespace MatchChain

variable {e : Expr} {calls : List Call} {m : MatchExpr}

/-! ## Patterns never wait -/

namespace MatchNames

variable {names : MatchNames}

theorem awaits_of_text (h : (textOf? e).isSome = true) : e.awaits = false := by
  cases e with
  | str => rfl
  | _ => cases h

theorem awaits_of_isNamespace (h : names.isNamespace e = true) : e.awaits = false := by
  cases e with
  | ident => rfl
  | _ => cases h

theorem awaits_of_member {name : String} (h : names.namespaceMember? e = some name) :
    e.awaits = false := by
  unfold namespaceMember? at h
  split at h
  · split at h
    · rw [Expr.awaits_member]
      exact awaits_of_isNamespace ‹_›
    · cases h
  · cases h

mutual

theorem awaits_of_supported : ∀ {e : Expr}, (names.supported? e).isSome = true → e.awaits = false
  | .ident .., _ | .str .., _ | .num .., _ | .bigint .., _ | .bool .., _ | .null .., _ => rfl
  | .thisRef .., h => nomatch h
  | .template _ texts holes, h => by
    rw [Expr.awaits_template]
    cases holes with
    | nil => rfl
    | cons hole holes => rcases texts with _ | ⟨text, _ | ⟨more, texts⟩⟩ <;> cases h
  | .array _ items, h => by
    rw [supported?_array, Option.isSome_map] at h
    rw [Expr.awaits_array]
    exact awaits_of_elements h
  | .object _ props, h => by
    rw [supported?_object, Option.isSome_map] at h
    rw [Expr.awaits_object]
    exact awaits_of_fields h
  | .unary _ op operand, h => by
    rw [supported?_unary] at h
    cases operand with
    | num => cases op <;> first | rfl | cases h
    | _ => cases op <;> cases h
  | .member _ object property true, h => nomatch h
  | .member _ object property false, h => by
    rw [Expr.awaits_member]
    rw [supported?, pattern] at h
    split at h
    · exact awaits_of_isNamespace ‹_›
    · cases h
  | .call _ callee args true, h => nomatch h
  | .call span callee args false, h => by
    rw [supported?_call] at h
    cases hmember : names.namespaceMember? callee with
    | none =>
      rw [hmember] at h
      cases h
    | some name =>
      rw [hmember, Option.bind_some, Face.called] at h
      rw [Expr.awaits_call, awaits_of_member hmember, Bool.false_or]
      split at h
      · cases h
      · split at h
        · exact awaits_of_selected h
        · cases h
  | .func .., h | .binary .., h | .conditional .., h | .assign .., h | .index .., h | .construct .., h
  | .spread .., h => nomatch h

theorem awaits_of_elements : ∀ {es : List Expr}, (Face.elements (es.map names.face)).isSome = true →
    es.any Expr.awaits = false
  | [], _ => rfl
  | e :: es, h => by
    rw [List.map_cons, Face.elements] at h
    split at h
    · cases h
    · change ((names.supported? e).bind fun p => (Face.elements (es.map names.face)).bind fun ps =>
        some (p :: ps)).isSome = true at h
      rw [List.any_cons]
      cases he : names.supported? e with
      | none =>
        rw [he] at h
        cases h
      | some p =>
        cases hes : Face.elements (es.map names.face) with
        | none =>
          rw [he, hes] at h
          cases h
        | some ps =>
          rw [awaits_of_supported (Option.isSome_of_eq_some he), awaits_of_elements (Option.isSome_of_eq_some hes)]
          rfl

theorem awaits_of_fields : ∀ {ps : List Property}, (ps.mapM names.field?).isSome = true →
    ps.any Property.awaits = false
  | [], _ => rfl
  | .spread .. :: ps, h => by
    rw [List.mapM_cons] at h
    cases h
  | .init _ key value _ :: ps, h => by
    rw [List.mapM_cons, field?] at h
    rw [List.any_cons, Property.awaits]
    cases key with
    | computed => cases h
    | _ =>
      cases hvalue : names.supported? value with
      | none =>
        rw [hvalue] at h
        cases h
      | some p =>
        cases hps : ps.mapM names.field? with
        | none =>
          rw [hvalue, hps] at h
          cases h
        | some fs =>
          rw [awaits_of_supported (Option.isSome_of_eq_some hvalue),
            awaits_of_fields (Option.isSome_of_eq_some hps)]
          rfl

theorem awaits_of_selected {span : Span} : ∀ {es : List Expr},
    (Face.selected span (es.map names.face)).isSome = true → es.any Expr.awaits = false
  | [], _ => rfl
  | [only], h => by
    rw [List.any_cons, List.any_nil, Bool.or_false]
    change (match textOf? only with
      | some name => some (Pattern.select ⟨span, some name, none⟩)
      | none => (names.supported? only).map fun p => Pattern.select ⟨span, none, some p⟩).isSome = true at h
    cases htext : textOf? only with
    | some text => exact awaits_of_text (Option.isSome_of_eq_some htext)
    | none =>
      rw [htext, Option.isSome_map] at h
      exact awaits_of_supported h
  | [label, inner], h => by
    change ((textOf? label).bind fun name => (names.supported? inner).map fun p =>
      Pattern.select ⟨span, some name, some p⟩).isSome = true at h
    cases htext : textOf? label with
    | none =>
      rw [htext] at h
      cases h
    | some text =>
      rw [htext, Option.bind_some, Option.isSome_map] at h
      rw [List.any_cons, List.any_cons, List.any_nil, Bool.or_false,
        awaits_of_text (Option.isSome_of_eq_some htext), awaits_of_supported h]
      rfl
  | _ :: _ :: _ :: _, h => nomatch h

end

/-! ## Only the subject of a value waits -/

theorem supported?_of_pattern {p : Pattern} (h : names.pattern e = .ok p) (htestable : p.Testable) :
    names.supported? e = some p := by
  rw [supported?, h]
  change Option.filter _ (some p) = some p
  rw [Option.filter_some, (Pattern.unsupported?_eq_none_iff p).mpr htestable]
  rfl

theorem awaits_spells (h : Chain.Spells names.matcher calls e) :
    e.awaits = calls.any fun c => c.args.any Expr.awaits := by
  induction h with
  | root span s args =>
    rw [Expr.awaits_call, List.any_cons, List.any_nil, Bool.or_false]
    rfl
  | link span s property args h ih =>
    rw [Expr.awaits_call, Expr.awaits_member, ih, List.any_append, List.any_cons, List.any_nil, Bool.or_false]

section Hosted

variable {m : MatchExpr} (hawait : m.awaitFault? = none)

include hawait

theorem awaits_of_hosted (he : e ∈ m.hosted) : e.awaits = false := by
  have hnone : m.hosted.find? Expr.awaits = none := Option.map_eq_none_iff.mp hawait
  exact Bool.eq_false_iff.mpr (List.find?_eq_none.mp hnone e he)

theorem awaits_of_handler (h : ∀ callee, (Handler.ofExpr e).callee? = some callee → callee ∈ m.hosted) :
    e.awaits = false := by
  cases e with
  | func span fn => exact Expr.awaits_func span fn
  | _ => exact awaits_of_hosted hawait (h _ rfl)

theorem awaits_of_clause {c : Call} {b : Branch} (hb : b ∈ m.branches) (hclause : names.Clause c b)
    (hcompilable : b.Compilable) : c.args.any Expr.awaits = false := by
  obtain ⟨patterns, handler, hargs, hhandler, hpatterns⟩ := hclause.arguments
  have hhosted : ∀ e ∈ b.guard.toList ++ b.handler.callee?.toList, e ∈ m.hosted := fun e he =>
    List.mem_append_left _ (List.mem_flatMap.mpr ⟨b, hb, he⟩)
  rw [hargs, List.any_eq_false]
  intro e he
  rw [Bool.not_eq_true]
  rcases List.mem_append.mp he with he | he
  · rcases List.mem_append.mp he with he | he
    · obtain ⟨p, hp, hpattern⟩ := exists_of_forall₂ hpatterns he
      exact awaits_of_supported (Option.isSome_of_eq_some
        (supported?_of_pattern hpattern (hcompilable.testable p hp)))
    · exact awaits_of_hosted hawait (hhosted e (List.mem_append_left _ he))
  · rw [List.mem_singleton.mp he]
    refine awaits_of_handler hawait fun callee hcallee => hhosted callee (List.mem_append_right _ ?_)
    rw [hhandler, hcallee]
    exact List.mem_singleton_self callee

theorem awaits_of_read (h : names.read e = .ok (some m)) : e.awaits = m.subject.awaits := by
  obtain ⟨root, operations, hspells, _, hroot, _, hadds⟩ := read_operations h
  obtain ⟨bs, hbs, hclauses, hcompilable⟩ := hadds.branches
  rw [List.nil_append] at hbs
  subst hbs
  have hoperations : operations.any (fun c => c.args.any Expr.awaits) = false := by
    rw [List.any_eq_false]
    intro c hc
    rw [Bool.not_eq_true]
    cases hclause : names.isClause c with
    | true =>
      obtain ⟨b, hb, hreads⟩ := exists_of_forall₂ hclauses (List.mem_filter.mpr ⟨hc, hclause⟩)
      exact awaits_of_clause hawait hb hreads (hcompilable b hb)
    | false =>
      rcases hadds.others c hc hclause with hnone | ⟨handler, hargs, hfallback⟩
      · rw [hnone]
        rfl
      · rw [hargs, List.any_cons, List.any_nil, Bool.or_false]
        refine awaits_of_handler hawait fun callee hcallee => List.mem_append_right _ ?_
        rw [hfallback, Option.bind_some, hcallee]
        exact List.mem_singleton_self callee
  rw [awaits_spells hspells, List.any_cons, hoperations, Bool.or_false, hroot, List.any_cons, List.any_nil,
    Bool.or_false]

end Hosted

/-! ## Code for a value -/

theorem spine_callAtOnce (span : Span) (cache : Option (String × Expr)) (body : List Stmt) :
    names.spine (Emission.callAtOnce span cache body) = none := rfl

theorem awaits_of_isCheap {cost : CostModel} (h : cost.isCheap e = true) : e.awaits = false := by
  unfold CostModel.isCheap at h
  split at h
  · rfl
  · rfl
  · cases h

/-- A chain stands for no pattern. -/
theorem supported?_spells (h : Chain.Spells names.matcher calls e) :
    names.supported? e = none := by
  cases h with
  | root => rfl
  | link span s property args h =>
    rw [supported?_call]
    cases h <;> rfl

/-- Code for a value has the face of the chain that it replaces. -/
theorem face_generate {e code : Expr} {options : GenerateOptions} {ordinal : Nat}
    (h : names.read e = .ok (some m)) (hcode : m.generate options .value ordinal = .ok (.expr code)) :
    names.face code = names.face e := by
  obtain ⟨_, hawait, cache, em, body, hparts, _, heq⟩ := MatchExpr.generate_value_shape hcode
  cases heq
  obtain ⟨root, operations, hspells, _, _, hspan, _⟩ := read_operations h
  have hawaits : (Emission.callAtOnce m.span (cache.map (·, m.subject)) body).awaits = e.awaits := by
    rw [awaits_of_read hawait h, Emission.callAtOnce, Expr.awaits_call, Expr.awaits_func, Bool.false_or]
    cases cache with
    | some name => exact Bool.or_false _
    | none => exact (awaits_of_isCheap (hparts.cheap rfl)).symm
  have hpattern := supported?_spells hspells
  generalize root :: operations = calls at hspells
  cases hspells with
  | root => exact Face.ext hspan rfl rfl rfl rfl rfl hawaits rfl rfl rfl rfl rfl rfl
  | link => exact Face.ext hspan rfl rfl rfl rfl rfl hawaits rfl rfl rfl rfl rfl hpattern.symm

/-! ## Attempts -/

theorem read_of_recognize (h : names.recognize e = some calls) :
    names.read e = (names.ofCalls calls).map some := by
  rw [read, h]

/-- Code is generated exactly for what `compiles`. -/
theorem generate_isOk (h : names.read e = .ok (some m)) (options : GenerateOptions)
    (placement : Placement) (ordinal : Nat) :
    (m.generate options placement ordinal).isOk = names.compiles placement.isStatement e := by
  rw [compiles, h]
  change _ = (m.handlerFault?.isNone && (placement.isStatement || m.awaitFault?.isNone))
  cases hcode : m.generate options placement ordinal with
  | ok code =>
    cases hstatement : placement.isStatement with
    | true =>
      rw [(MatchExpr.generate_statement_shape hstatement hcode).1]
      rfl
    | false =>
      cases placement with
      | value =>
        obtain ⟨hhandler, hawait, _⟩ := MatchExpr.generate_value_shape hcode
        rw [hhandler, hawait]
        rfl
      | _ => cases hstatement
  | error fault =>
    rcases MatchExpr.generate_eq_error hcode with hhandler | ⟨rfl, hawait⟩ | ⟨em, plans, hbranches⟩
    · rw [hhandler]
      rfl
    · rw [hawait]
      exact (Bool.and_false _).symm
    · obtain ⟨_, _, _, hcompilable, _⟩ := read_adds h
      have htestable : ∀ b ∈ m.branches.zip plans, ∀ p ∈ b.1.patterns, p.Testable := fun b hb =>
        (hcompilable b.1 (List.of_mem_zip hb).1).testable
      obtain ⟨r, hr⟩ := em.branches_eq_ok htestable
      rw [hr] at hbranches
      cases hbranches

end MatchNames

/-- A warning is never filtered out. -/
theorem DiagnosticQueue.length_push {d : Diagnostic} (h : d.isError = false) (q : DiagnosticQueue) :
    (q.push d).2.length = q.length + 1 := by
  simp [push, add, repeatsLine, h, length]

/-- What is in a queue stays there. -/
theorem DiagnosticQueue.entries_push (d : Diagnostic) (q : DiagnosticQueue) :
    q.entries <+: (q.push d).2.entries := by
  unfold push add
  dsimp only
  split
  · exact List.prefix_refl _
  · split
    · exact List.prefix_refl _
    · exact List.prefix_append _ _

namespace Pass

/-- What an attempt to compile a call does. -/
inductive Attempted (ctx : PassContext) (call : Expr) (placement : Placement) (s : PassState) :
    Attempt → PassState → Prop where
  | notAChain : ctx.names.recognizes call = false → Attempted ctx call placement s .notAChain s
  | failed (queue : DiagnosticQueue) (nextOrdinal : Nat) (minted : List String) :
      ctx.names.recognizes call = true → ctx.names.compiles placement.isStatement call = false →
      queue.length = s.queue.length + 1 → s.queue.entries <+: queue.entries →
      (nextOrdinal = s.nextOrdinal ∧ minted = s.minted ∨ ∃ m : MatchExpr, nextOrdinal = s.nextOrdinal + 1 ∧
        minted = s.minted ++ (m.attempt ctx.options placement s.nextOrdinal).2.taken) →
      Attempted ctx call placement s .failed { s with queue, nextOrdinal, minted }
  | generated (m : MatchExpr) (code : Generated) (minted : List String) :
      ctx.names.compiles placement.isStatement call = true → ctx.names.read call = .ok (some m) →
      m.generate ctx.options placement s.nextOrdinal = .ok code →
      minted = s.minted ++ (m.attempt ctx.options placement s.nextOrdinal).2.taken →
      Attempted ctx call placement s (.generated code)
        { s with nextOrdinal := s.nextOrdinal + 1, replaced := s.replaced + 1, minted }

/-- A chain that can be read is compiled under the next number. -/
theorem compile_of_ofCalls {ctx : PassContext} {call : Expr}
    (hrecognize : ctx.names.recognize call = some calls) (hcalls : ctx.names.ofCalls calls = .ok m)
    (placement : Placement) (s : PassState) :
    compile ctx call placement s
      = (match m.generate ctx.options placement s.nextOrdinal with
        | .error e => do
          warn e.toDiagnostic
          return .failed
        | .ok code => do
          modify fun s => { s with replaced := s.replaced + 1 }
          return .generated code : Pass Attempt)
        { s with
          nextOrdinal := s.nextOrdinal + 1
          minted := s.minted ++ (m.attempt ctx.options placement s.nextOrdinal).2.taken } := by
  simp only [compile, hrecognize, hcalls]
  rfl

theorem compile_attempted (ctx : PassContext) (call : Expr) (placement : Placement) (s : PassState) :
    ∃ attempt s', compile ctx call placement s = some (attempt, s') ∧
      Attempted ctx call placement s attempt s' := by
  cases hrecognize : ctx.names.recognize call with
  | none =>
    refine ⟨.notAChain, s, ?_, .notAChain (by rw [MatchNames.recognizes, hrecognize]; rfl)⟩
    rw [compile, hrecognize]
    rfl
  | some calls =>
    have hread := MatchNames.read_of_recognize hrecognize
    have hrecognizes : ctx.names.recognizes call = true := by
      rw [MatchNames.recognizes, hrecognize]
      rfl
    cases hcalls : ctx.names.ofCalls calls with
    | error e =>
      have hcompiles : ctx.names.compiles placement.isStatement call = false := by
        rw [MatchNames.compiles, hread, hcalls]
        rfl
      have hwarning : e.toDiagnostic.isError = false := rfl
      refine ⟨.failed, { s with queue := (s.queue.push e.toDiagnostic).2 }, ?_,
        .failed _ s.nextOrdinal s.minted hrecognizes hcompiles (DiagnosticQueue.length_push hwarning s.queue)
          (DiagnosticQueue.entries_push _ s.queue) (.inl ⟨rfl, rfl⟩)⟩
      simp only [compile, hrecognize, hcalls]
      rfl
    | ok m =>
      rw [hcalls] at hread
      have hok := MatchNames.generate_isOk hread ctx.options placement s.nextOrdinal
      have hrun := compile_of_ofCalls hrecognize hcalls placement s
      cases hcode : m.generate ctx.options placement s.nextOrdinal with
      | error e =>
        rw [hcode] at hok hrun
        have hwarning : e.toDiagnostic.isError = false := rfl
        exact ⟨_, _, hrun, .failed _ _ _ hrecognizes hok.symm (DiagnosticQueue.length_push hwarning s.queue)
          (DiagnosticQueue.entries_push _ s.queue) (.inr ⟨m, rfl, rfl⟩)⟩
      | ok code =>
        rw [hcode] at hok hrun
        exact ⟨_, _, hrun, .generated m code _ hok.symm hread hcode rfl⟩

/-! ## Targets -/

theorem sharedTarget?_of_name {target : Expr} (h : target.identName?.isSome = true) (s : PassState) :
    sharedTarget? target s = some (none, s) := by
  cases target with
  | ident => rfl
  | _ => cases h

theorem sharedTarget?_of_not_name {target : Expr} (h : target.identName?.isSome = false) (s : PassState) :
    sharedTarget? target s = some (s.targets.lookup target.span, s) := by
  cases target with
  | ident => cases h
  | _ => rfl

section Shared

variable {target : Expr} {s : PassState} {o : Option (Option Expr)}

theorem currentPlacement_of_shared : sharedTarget? target s = some (o, s) →
    currentPlacement (.assignment target) s
      = some (match o with | some (some walked) => .assignment walked | _ => .assignment target, s) := by
  intro h
  change (sharedTarget? target s).bind _ = _
  rw [h]
  rcases o with _ | _ | walked <;> rfl

theorem shareTarget_of_shared (h : sharedTarget? target s = some (o, s)) (hname : target.identName?.isSome = false) :
    shareTarget (.assignment target) s = (if o.isNone then setTarget target none else pure ()) s := by
  have hrun : shareTarget (.assignment target) s
      = (sharedTarget? target s).bind fun r => (if r.1.isNone then setTarget target none else pure ()) r.2 := by
    cases target with
    | ident => cases hname
    | _ => rfl
  rw [hrun, h]
  rfl

theorem walkTarget_of_shared {walk : Expr → Pass Expr} : sharedTarget? target s = some (o, s) →
    walkTarget walk target s
      = (match o with
        | some (some walked) => return walked
        | some none => do
          let walked ← walk target
          setTarget target (some walked)
          return walked
        | none => walk target : Pass Expr) s := by
  intro h
  change (sharedTarget? target s).bind _ = _
  rw [h]
  rcases o with _ | _ | walked <;> rfl

end Shared

end Pass

end MatchChain
