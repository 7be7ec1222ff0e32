import MatchChain.Proofs.Pass.Clean
import MatchChain.Proofs.Pass.Depth
import MatchChain.Proofs.Pass.Settled

/-!
# Steps of a walk that succeed

`Runs` is the total correctness of a step: from a state that knows certain targets it gives a result, and
what holds of the result may depend on the outlook on the whole walk: on whether a chain has failed, which the
number of warnings tells, and on the names that have been made up. The rules for `compile` and for the targets
of assignments are the only ones that look at the state.
-/

set_option autoImplicit false

namespace MatchChain

variable {s : PassState}

/-- What a walk keeps of an expression: its face, and its spine too, unless the chains in it were compiled
    and are no longer there. -/
structure MatchNames.Alike (names : MatchNames) (offered : Bool) (e e' : Expr) : Prop where
  face : names.face e' = names.face e
  spine : names.spine e' = names.spine e ∨ offered = false ∧ names.spine e' = none

namespace MatchNames.Alike

variable {names : MatchNames} {offered : Bool} {e e' : Expr}

theorem refl (names : MatchNames) (offered : Bool) (e : Expr) : names.Alike offered e e := ⟨rfl, .inl rfl⟩

theorem isCall (h : names.Alike offered e e') : e'.isCall = e.isCall := congrArg Face.isCall h.face

/-- A chain stays one if its calls are not offered, and what is no chain does not become one. -/
theorem recognizes (h : names.Alike (names.recognizes e) e e') : names.recognizes e' = names.recognizes e := by
  rcases h.spine with hspine | ⟨hother, hnone⟩
  · exact recognizes_of_spine h.isCall hspine
  · rw [hother]
    exact recognizes_of_spine_eq_none hnone

theorem compiles (h : names.Alike offered e e') {statement : Bool} (he : names.compiles statement e = false) :
    names.compiles statement e' = false := by
  rcases h.spine with hspine | ⟨_, hnone⟩
  · rw [compiles_of_spine h.isCall hspine, he]
  · exact compiles_of_not_recognizes (recognizes_of_spine_eq_none hnone) statement

/-- Whatever is made of code that is no chain is none either. -/
theorem spine_eq_none (h : names.Alike offered e e') (hnone : names.spine e = none) : names.spine e' = none := by
  rcases h.spine with hspine | ⟨_, hspine⟩
  · rw [hspine, hnone]
  · exact hspine

theorem weaken (h : names.Alike true e e') : names.Alike false e e' :=
  ⟨h.face, .inl (h.spine.resolve_right fun h => nomatch h.1)⟩

theorem member (h : names.Alike offered e e') (span : Span) (property : String) (optional : Bool) :
    names.Alike offered (.member span e property optional) (.member span e' property optional) := by
  refine ⟨face_member h.face property optional, ?_⟩
  cases optional with
  | true => exact .inl rfl
  | false =>
    rw [MatchNames.spine, MatchNames.spine, h.isCall]
    cases e.isCall with
    | false => exact .inl rfl
    | true => exact h.spine

theorem call {callee callee' : Expr} {args args' : List Expr} (h : names.Alike offered callee callee')
    (hargs : args'.map names.face = args.map names.face) (span : Span) (optional : Bool) :
    names.Alike offered (.call span callee args optional) (.call span callee' args' optional) := by
  refine ⟨face_call h.face hargs, ?_⟩
  cases optional with
  | true => exact .inl rfl
  | false =>
    have hproperty : callee'.property? = callee.property? := congrArg Face.property h.face
    rw [MatchNames.spine, MatchNames.spine, h.isCall, hargs, hproperty]
    cases callee.isCall with
    | true => exact .inl rfl
    | false =>
      rcases h.spine with hspine | ⟨hoffered, hnone⟩
      · rw [hspine]
        exact .inl rfl
      · rw [hnone]
        exact .inr ⟨hoffered, rfl⟩

end MatchNames.Alike

namespace Pass

variable {names : MatchNames} {known : Span → Bool} {α β : Type} {w : Outlook}

/-! ## States -/

/-- The targets that have been walked are settled and clean. -/
def Kept (names : MatchNames) (w : Outlook) (s : PassState) : Prop :=
  ∀ span target, s.targets.lookup span = some (some target) →
    Settled.expr names w.fails false target ∧ w.Clean [.expr target]

/-- What has become of a target has its span. -/
def Spanned (s : PassState) : Prop := ∀ span target, s.targets.lookup span = some (some target) → target.span = span

/-- The targets with these spans have been walked. -/
def Knows (known : Span → Bool) (s : PassState) : Prop :=
  ∀ span, known span = true → ∃ target, s.targets.lookup span = some (some target)

theorem Knows.eq_false (h : Knows known s) {span : Span}
    (hlookup : ∀ target, s.targets.lookup span ≠ some (some target)) : known span = false :=
  Bool.eq_false_iff.mpr fun hknown => (h span hknown).elim hlookup

/-- A later state: no warning is withdrawn, and what has been walked stays known. -/
structure Later (s s' : PassState) : Prop extends Adds s s' where
  queue : s.queue.length ≤ s'.queue.length
  known : ∀ known, Knows known s → Knows known s'
  spanned : Spanned s → Spanned s'

theorem Later.refl (s : PassState) : Later s s := ⟨.refl s, Nat.le_refl _, fun _ h => h, fun h => h⟩

theorem Later.trans {s₁ s₂ s₃ : PassState} (h : Later s₁ s₂) (h' : Later s₂ s₃) : Later s₁ s₃ :=
  ⟨h.toAdds.trans h'.toAdds, Nat.le_trans h.queue h'.queue, fun known hk => h'.known known (h.known known hk),
    fun hs => h'.spanned (h.spanned hs)⟩

/-- What is noted of a target, and what was. -/
theorem lookup_setTarget {P : Span → Expr → Prop} {span : Span} {walked : Option Expr}
    (h : ∀ span target, s.targets.lookup span = some (some target) → P span target) (hwalked : ∀ e ∈ walked, P span e) :
    ∀ span' target, List.lookup span' ((span, walked) :: s.targets) = some (some target) → P span' target := by
  intro span' target hlookup
  rw [List.lookup_cons] at hlookup
  split at hlookup
  · rename_i heq
    cases hlookup
    rw [eq_of_beq heq]
    exact hwalked target rfl
  · exact h span' target hlookup

theorem Later.setTarget {span : Span} {walked : Option Expr} (hspan : ∀ e ∈ walked, e.span = span)
    (h : walked.isSome = true ∨ s.targets.lookup span = none) :
    Later s { s with targets := (span, walked) :: s.targets } := by
  refine ⟨⟨List.prefix_refl _, fun h => ⟨h.distinct, h.given⟩⟩, Nat.le_refl _, fun known hknows span' hknown => ?_,
    fun hs => lookup_setTarget hs hspan⟩
  obtain ⟨target, hlookup⟩ := hknows span' hknown
  dsimp only
  rw [List.lookup_cons]
  split
  · rename_i heq
    rw [eq_of_beq heq] at hlookup
    rcases h with h | h
    · obtain ⟨e, rfl⟩ := Option.isSome_iff_exists.mp h
      exact ⟨e, rfl⟩
    · rw [h] at hlookup
      cases hlookup
  · exact ⟨target, hlookup⟩

/-- The outlook is right about what happens between two states. -/
structure Allows (w : Outlook) (s s' : PassState) : Prop where
  queue : w.fails = true ∨ s'.queue.length = s.queue.length
  minted : ∀ x ∈ s'.minted, w.named x

/-- What is right about two steps is right about each of them. -/
theorem Allows.steps {s₁ s₂ : PassState} (h : Allows w s s₂) (h₁ : Later s s₁) (h₂ : Later s₁ s₂) :
    Allows w s s₁ ∧ Allows w s₁ s₂ := by
  have hqueue := h₁.queue
  have hqueue' := h₂.queue
  exact ⟨⟨h.queue.imp_right fun _ => by omega, fun x hx => h.minted x (h₂.minted.subset hx)⟩,
    h.queue.imp_right fun _ => by omega, h.minted⟩

/-- A step that gives a result wherever the targets with `known` spans have been walked. Of the result `Q` holds under
    every outlook that satisfies `P` and is right about the step. -/
def Runs (names : MatchNames) (known : Span → Bool) (P : Outlook → Prop) (p : Pass α) (Q : Outlook → α → Prop) : Prop :=
  ∀ s, Spanned s → Knows known s → ∃ a s', p s = some (a, s') ∧ Later s s' ∧
    ∀ w, Allows w s s' → P w → Kept names w s → Q w a ∧ Kept names w s'

namespace Runs

variable {P P' : Outlook → Prop} {ms ns : List Part}

theorem pure {Q : Outlook → α → Prop} {a : α} (h : ∀ w, P w → Q w a) : Runs names known P (Pure.pure a) Q :=
  fun s _ _ => ⟨a, s, rfl, .refl s, fun w _ hP hkept => ⟨h w hP, hkept⟩⟩

theorem pre {p : Pass α} {Q : Outlook → α → Prop} (h : ∀ w, P w → P' w) (hp : Runs names known P' p Q) :
    Runs names known P p Q := by
  intro s hspanned hknows
  obtain ⟨a, s', hrun, hlater, hq⟩ := hp s hspanned hknows
  exact ⟨a, s', hrun, hlater, fun w hallows hP => hq w hallows (h w hP)⟩

theorem mono {p : Pass α} {Q R : Outlook → α → Prop} (hp : Runs names known P p Q)
    (h : ∀ w a, Q w a → R w a) : Runs names known P p R := by
  intro s hspanned hknows
  obtain ⟨a, s', hrun, hlater, hq⟩ := hp s hspanned hknows
  exact ⟨a, s', hrun, hlater, fun w hallows hP hkept => (hq w hallows hP hkept).imp_left (h w a)⟩

/-- Some parts are walked after others. -/
theorem bind {p : Pass α} {f : α → Pass β} {Q : Outlook → α → Prop} {R : Outlook → β → Prop}
    (hp : Runs names known (·.Clean ms) p Q) (hf : ∀ a, Runs names known (·.Clean ns) (f a) fun w b => Q w a → R w b) :
    Runs names known (·.Clean (ms ++ ns)) (p >>= f) R := by
  intro s hspanned hknows
  obtain ⟨a, s₁, hrun, hlater, hq⟩ := hp s hspanned hknows
  obtain ⟨b, s₂, hrun', hlater', hr⟩ := hf a s₁ (hlater.spanned hspanned) (hlater.known known hknows)
  refine ⟨b, s₂, ?_, hlater.trans hlater', fun w hallows hparts hkept => ?_⟩
  · change (p s).bind (fun r => f r.1 r.2) = _
    rw [hrun]
    exact hrun'
  · obtain ⟨hallows, hallows'⟩ := hallows.steps hlater hlater'
    obtain ⟨hqa, hkept₁⟩ := hq w hallows hparts.left hkept
    obtain ⟨hrb, hkept₂⟩ := hr w hallows' hparts.right hkept₁
    exact ⟨hrb hqa, hkept₂⟩

/-- The last of some parts, whose result is made a part of something. -/
theorem map {p : Pass α} {g : α → β} {Q : Outlook → α → Prop} {R : Outlook → β → Prop}
    (hp : Runs names known (·.Clean ms) p Q) (h : ∀ w a, Q w a → R w (g a)) :
    Runs names known (·.Clean ms) (p >>= fun a => Pure.pure (g a)) R := by
  have hmap : Runs names known (·.Clean (ms ++ [])) (p >>= fun a => Pure.pure (g a)) R :=
    hp.bind fun a => pure fun w _ => h w a
  rwa [List.append_nil] at hmap

/-- A node is rebuilt of its parts. -/
theorem node {n : Part} {p : Pass α} {Q : Outlook → α → Prop}
    (hp : Runs names known (·.Clean n.children) p fun w a => w.Clean [n] → Q w a) :
    Runs names known (·.Clean [n]) p Q := by
  intro s hspanned hknows
  obtain ⟨a, s', hrun, hlater, hq⟩ := hp s hspanned hknows
  exact ⟨a, s', hrun, hlater, fun w hallows hn hkept => (hq w hallows hn.children hkept).imp_left fun hq => hq hn⟩

theorem weaken {known' : Span → Bool} {p : Pass α} {Q : Outlook → α → Prop} (hp : Runs names known P p Q)
    (h : ∀ span, known span = true → known' span = true) : Runs names known' P p Q :=
  fun s hspanned hknows => hp s hspanned fun span hspan => hknows span (h span hspan)

theorem mapM {part : α → Part} {f : α → Pass β} {Q : α → Outlook → β → Prop} {l : List α}
    (h : ∀ a ∈ l, Runs names known (·.Clean [part a]) (f a) (Q a)) :
    Runs names known (·.Clean (l.map part)) (l.mapM f) fun w bs => List.Forall₂ (fun a b => Q a w b) l bs := by
  induction l with
  | nil => exact .pure fun _ _ => .nil
  | cons a l ih =>
    rw [List.mapM_cons]
    obtain ⟨ha, hl⟩ := List.forall_mem_cons.mp h
    change Runs names known (·.Clean ([part a] ++ l.map part)) _ _
    exact .bind ha fun b => .map (ih hl) fun _ _ hbs hb => .cons hb hbs

theorem mapM? {part : α → Part} {f : α → Pass β} {Q : α → Outlook → β → Prop} {o : Option α}
    (h : ∀ a ∈ o, Runs names known (·.Clean [part a]) (f a) (Q a)) :
    Runs names known (·.Clean (o.toList.map part)) (o.mapM f) fun w o' => Option.Rel (fun a b => Q a w b) o o' := by
  cases o with
  | none => exact .pure fun _ _ => .none
  | some a =>
    have hmap : (some a).mapM f = f a >>= fun b => Pure.pure (some b) := map_eq_pure_bind _ _
    rw [hmap]
    exact .map (h a rfl) fun _ _ hb => .some hb

/-- What holds several parts of a node. -/
theorem parts {f : α → Pass α} {m : α → List Part} {g : List α → List Part} {Q : Bool → α → Prop} {l : List α}
    (hcons : ∀ a l, g (a :: l) = m a ++ g l)
    (h : ∀ a ∈ l, Runs names known (·.Clean (m a)) (f a) fun w b => Q w.fails b ∧ w.Clean (m b)) :
    Runs names known (·.Clean (g l)) (l.mapM f) fun w bs => (∀ b ∈ bs, Q w.fails b) ∧ w.Clean (g bs) := by
  induction l with
  | nil => exact .pure fun _ hnone => ⟨nofun, hnone⟩
  | cons a l ih =>
    rw [List.mapM_cons, hcons]
    obtain ⟨ha, hl⟩ := List.forall_mem_cons.mp h
    refine .bind ha fun b => .map (ih hl) fun _ bs hbs hb => ?_
    rw [hcons]
    exact ⟨List.forall_mem_cons.mpr ⟨hb.1, hbs.1⟩, hb.2.append hbs.2⟩

/-- What may be missing. -/
theorem parts? {f : α → Pass α} {m : α → List Part} {g : Option α → List Part} {Q : Bool → α → Prop} {o : Option α}
    (hsome : ∀ a, g (some a) = m a)
    (h : ∀ a ∈ o, Runs names known (·.Clean (m a)) (f a) fun w b => Q w.fails b ∧ w.Clean (m b)) :
    Runs names known (·.Clean (g o)) (o.mapM f) fun w o' => (∀ b ∈ o', Q w.fails b) ∧ w.Clean (g o') := by
  cases o with
  | none => exact .pure fun _ hnone => ⟨nofun, hnone⟩
  | some a =>
    have hmap : (some a).mapM f = f a >>= fun b => Pure.pure (some b) := map_eq_pure_bind _ _
    rw [hmap, hsome]
    refine .map (h a rfl) fun w b hb => ?_
    rw [hsome]
    refine ⟨?_, hb.2⟩
    rintro _ ⟨⟩
    exact hb.1

/-! ## Compiling -/

/-- A call is compiled, or it is no chain, or a chain that fails. -/
theorem compile {ctx : PassContext} {call : Expr} {placement : Placement} {f : Attempt → Pass β}
    {R : Outlook → β → Prop}
    (hsource : ∀ w, P w → w.tidy → call.Clean w.attached w.named ∧ placement.Clean w.attached w.named)
    (hother : ctx.names.recognizes call = false → Runs ctx.names known P (f .notAChain) R)
    (hfailed : ctx.names.recognizes call = true → ctx.names.compiles placement.isStatement call = false →
      Runs ctx.names known P (f .failed) fun w b => w.fails = true → R w b)
    (hcode : ∀ m code ordinal, ctx.names.read call = .ok (some m) →
      m.generate ctx.options placement ordinal = .ok code →
      Runs ctx.names known (fun w => w.tidy → code.Clean w.attached w.named) (f (.generated code)) R) :
    Runs ctx.names known P (Pass.compile ctx call placement >>= f) R := by
  intro s hspanned hknows
  obtain ⟨attempt, s₁, hrun, hattempt⟩ := compile_attempted ctx call placement s
  have hadds := hattempt.adds
  have hbind : (Pass.compile ctx call placement >>= f) s = f attempt s₁ := by
    change (Pass.compile ctx call placement s).bind (fun r => f r.1 r.2) = _
    rw [hrun]
    rfl
  rw [hbind]
  cases hattempt with
  | notAChain hrecognizes => exact hother hrecognizes s hspanned hknows
  | failed queue nextOrdinal minted hrecognizes hcompiles hlength =>
    obtain ⟨b, s₂, hrun, hlater, hr⟩ :=
      hfailed hrecognizes hcompiles { s with queue, nextOrdinal, minted } hspanned hknows
    have hqueue := hlater.queue
    dsimp only at hqueue
    refine ⟨b, s₂, hrun, ⟨hadds.trans hlater.toAdds, by omega, hlater.known, hlater.spanned⟩,
      fun w hallows hP hkept => ?_⟩
    -- The warning is still there, so that no result without a failure is asked for.
    have htrue : w.fails = true := hallows.queue.resolve_right (by omega)
    exact (hr w ⟨.inl htrue, hallows.minted⟩ hP hkept).imp_left fun h => h htrue
  | generated m code minted hcompiles hread hgenerate hminted =>
    obtain ⟨b, s₂, hrun, hlater, hr⟩ := hcode m code s.nextOrdinal hread hgenerate
      { s with nextOrdinal := s.nextOrdinal + 1, replaced := s.replaced + 1, minted } hspanned hknows
    refine ⟨b, s₂, hrun, ⟨hadds.trans hlater.toAdds, hlater.queue, hlater.known, hlater.spanned⟩,
      fun w hallows hP => hr w ⟨hallows.queue, hallows.minted⟩ fun htidy => ?_⟩
    obtain ⟨hcall, hplacement⟩ := hsource w hP htidy
    exact (Attempted.generated m code minted hcompiles hread hgenerate hminted).clean
      (fun x hx => hallows.minted x (hlater.minted.subset hx)) hcall hplacement

/-! ## Targets -/

theorem shareTarget (placement : Placement) :
    Runs names known (·.Clean []) (Pass.shareTarget placement) fun _ _ => True := by
  cases placement with
  | assignment target =>
    cases hname : target.identName?.isSome with
    | true =>
      cases target with
      | ident => exact .pure fun _ _ => trivial
      | _ => cases hname
    | false =>
      intro s hspanned hknows
      rw [shareTarget_of_shared (sharedTarget?_of_not_name hname s) hname]
      split
      · rename_i hnone
        exact ⟨(), _, rfl, .setTarget nofun (.inr (Option.isNone_iff_eq_none.mp hnone)),
          fun w _ _ hkept => ⟨trivial, lookup_setTarget hkept nofun⟩⟩
      · exact ⟨(), s, rfl, .refl s, fun w _ _ hkept => ⟨trivial, hkept⟩⟩
  | _ => exact .pure fun _ _ => trivial

/-- The target of a placement is replaced by what it has become, which need not be walked again. -/
theorem currentPlacement {placement : Placement} {f : Placement → Pass β} {R : Outlook → β → Prop}
    (hsource : ∀ w, P w → w.tidy → placement.Clean w.attached w.named)
    (h : ∀ placement' known', (∀ span, known span = true → known' span = true) →
      placement'.isStatement = placement.isStatement → placement'.depth known' ≤ placement.depth known →
      Runs names known' (fun w => P w ∧ (w.tidy → placement'.Clean w.attached w.named)) (f placement') R) :
    Runs names known P (Pass.currentPlacement placement >>= f) R := by
  have hsame := (h placement known (fun _ h => h) rfl (Nat.le_refl _)).pre fun w hP => ⟨hP, hsource w hP⟩
  cases placement with
  | assignment target =>
    intro s hspanned hknows
    obtain ⟨o, hshared, ho⟩ : ∃ o, sharedTarget? target s = some (o, s) ∧
        (o = none ∨ o = s.targets.lookup target.span) := by
      cases hname : target.identName?.isSome with
      | true => exact ⟨none, sharedTarget?_of_name hname s, .inl rfl⟩
      | false => exact ⟨_, sharedTarget?_of_not_name hname s, .inr rfl⟩
    change ∃ a s', (Pass.currentPlacement (.assignment target) s).bind (fun r => f r.1 r.2) = some (a, s') ∧ _
    rw [currentPlacement_of_shared hshared]
    rcases o with _ | _ | walked
    · exact hsame s hspanned hknows
    · exact hsame s hspanned hknows
    · have hlookup := (ho.resolve_left (by rintro ⟨⟩)).symm
      let known' (span : Span) : Bool := known span || span == target.span
      have hdepth : (Placement.assignment walked).depth known' ≤ (Placement.assignment target).depth known := by
        have hself : known' target.span = true := Bool.or_eq_true_iff.mpr (.inr (beq_self_eq_true _))
        rw [Placement.depth, Placement.depth, Depth.target, hspanned _ _ hlookup, if_pos hself]
        exact Depth.four_le_target known target
      have hknows' : Knows known' s := by
        intro span hspan
        rcases Bool.or_eq_true_iff.mp hspan with hknown | heq
        · exact hknows span hknown
        · rw [eq_of_beq heq]
          exact ⟨walked, hlookup⟩
      obtain ⟨b, s', hrun, hlater, hr⟩ := h (.assignment walked) known'
        (fun span hspan => Bool.or_eq_true_iff.mpr (.inl hspan)) rfl hdepth s hspanned hknows'
      refine ⟨b, s', hrun, hlater, fun w hallows hP hkept => hr w hallows ⟨hP, fun htidy => ?_⟩ hkept⟩
      exact (hkept _ _ hlookup).2 htidy _ (.head _)
  | _ => exact hsame

/-- A target is settled once it has been walked, here or before. -/
theorem walkTarget {walk : Expr → Pass Expr} {target : Expr}
    (hspan : ∀ s r, walk target s = some r → r.1.span = target.span)
    (h : known target.span = false ∨ target.identName?.isSome = true → Runs names known (·.Clean [.expr target])
      (walk target) fun w e' => Settled.expr names w.fails false e' ∧ w.Clean [.expr e']) :
    Runs names known (·.Clean [.expr target]) (Pass.walkTarget walk target) fun w e' =>
      Settled.expr names w.fails false e' ∧ w.Clean [.expr e'] := by
  intro s hspanned hknows
  cases hname : target.identName?.isSome with
  | true =>
    rw [walkTarget_of_shared (sharedTarget?_of_name hname s)]
    exact h (.inr hname) s hspanned hknows
  | false =>
    rw [walkTarget_of_shared (sharedTarget?_of_not_name hname s)]
    cases hlookup : s.targets.lookup target.span with
    | none =>
      have hunknown := hknows.eq_false (by rw [hlookup]; rintro _ ⟨⟩)
      exact h (.inl hunknown) s hspanned hknows
    | some o =>
      cases o with
      | some walked => exact ⟨walked, s, rfl, .refl s, fun w _ _ hkept => ⟨hkept _ _ hlookup, hkept⟩⟩
      | none =>
        have hunknown := hknows.eq_false (by rw [hlookup]; rintro _ ⟨⟩)
        obtain ⟨e', s', hwalk, hlater, hq⟩ := h (.inl hunknown) s hspanned hknows
        have hspan' : ∀ e ∈ some e', e.span = target.span := by
          rintro _ ⟨⟩
          exact hspan s _ hwalk
        refine ⟨e', { s' with targets := (target.span, some e') :: s'.targets }, ?_,
          hlater.trans (.setTarget hspan' (.inl rfl)), fun w hallows hclean hkept => ?_⟩
        · change (walk target s).bind _ = _
          rw [hwalk]
          rfl
        · obtain ⟨hq, hkept'⟩ := hq w ⟨hallows.queue, hallows.minted⟩ hclean hkept
          refine ⟨hq, lookup_setTarget hkept' ?_⟩
          rintro _ ⟨⟩
          exact hq

end Runs

end Pass

end MatchChain
