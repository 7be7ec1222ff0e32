import Mathlib.Algebra.Order.BigOperators.Group.Finset
import MatchChain.Pass.Walk
import MatchChain.Proofs.Pass.Settled
import MatchChain.Proofs.Pass.Weight

/-!
# What a walk costs

Each chain that a walk comes upon is replaced or costs a warning. `Pays` bounds their number by the weight of
what is walked, with the credit for targets that still have to be walked as a potential: sharing a target
puts its weight aside, and walking it at one of the exits takes that up again. `Spends` adds that a walk which
replaces nothing gives back what it was given, and that it replaces nothing in a settled tree. The depth of a walk
only keeps it from going on for ever: both say of a walk that one deeper gives whatever it does.
-/

set_option autoImplicit false

namespace MatchChain

variable {placement : Placement} {s' : PassState} {span : Span} {s : PassState} {matcher : String} {target : Expr}

/-! ## Credit -/

namespace Credit

/-- The credit with at least `n` for a span. -/
def raise (credit : Credit) (span : Span) (n : Nat) : Credit :=
  fun other => if other = span then max (credit span) n else credit other

variable (credit : Credit) (span : Span) (n : Nat)

theorem le_raise : credit ≤ credit.raise span n := by
  intro other
  unfold raise
  split
  · rename_i h
    rw [h]
    exact Nat.le_max_left _ _
  · exact Nat.le_refl _

theorem raise_self : credit.raise span n span = max (credit span) n := if_pos rfl

theorem erase_raise : (credit.raise span n).erase span = credit.erase span := by
  funext other
  unfold erase raise
  split <;> rfl

theorem erase_self : credit.erase span span = 0 := if_pos rfl

variable {credit span}

theorem erase_of_ne {other : Span} (h : other ≠ span) : credit.erase span other = credit other := if_neg h

theorem raise_of_ne {other : Span} (h : other ≠ span) : credit.raise span n other = credit other := if_neg h

theorem erase_eq_self (h : credit span = 0) : credit.erase span = credit := by
  funext other
  unfold erase
  split
  · rename_i heq
    rw [heq, h]
  · rfl

end Credit

/-- What the walk of a placement's target costs beyond the credit for it. -/
def Placement.excess (matcher : String) (credit : Credit) : Placement → Nat
  | .assignment target => Weight.expr matcher (credit.erase target.span) false target - credit target.span
  | _ => 0

namespace Pass

/-- The chains that a walk has come upon so far. -/
def cost (s : PassState) : Nat := s.queue.length + s.replaced

/-- Whether a shared target has still to be walked. -/
def isPending (s : PassState) (span : Span) : Bool := (s.targets.lookup span).any Option.isNone

/-- The targets that have still to be walked. -/
def pending (s : PassState) : Finset Span := ((s.targets.map (·.1)).filter (isPending s)).toFinset

/-- The credit that has not been taken up. -/
def due (credit : Credit) (s : PassState) : Nat := ∑ span ∈ pending s, credit span

/-- Credit is held for shared targets only, and what has become of a target has its span. -/
structure Held (credit : Credit) (s : PassState) : Prop where
  shared : ∀ span, s.targets.lookup span = none → credit span = 0
  walked : ∀ span target, s.targets.lookup span = some (some target) → target.span = span

theorem mem_map_of_lookup {targets : List (Span × Option Expr)} {o : Option Expr}
    (h : targets.lookup span = some o) : span ∈ targets.map (·.1) := by
  induction targets with
  | nil => cases h
  | cons t targets ih =>
    rw [List.lookup_cons] at h
    split at h
    · rename_i heq
      rw [eq_of_beq heq]
      exact List.mem_cons_self
    · exact List.mem_cons_of_mem _ (ih h)

theorem mem_pending : span ∈ pending s ↔ s.targets.lookup span = some none := by
  unfold pending isPending
  rw [List.mem_toFinset, List.mem_filter]
  constructor
  · rintro ⟨_, hpending⟩
    cases hlookup : s.targets.lookup span with
    | none => rw [hlookup] at hpending; cases hpending
    | some o =>
      rw [hlookup] at hpending
      rw [Option.isNone_iff_eq_none.mp hpending]
  · intro hlookup
    exact ⟨mem_map_of_lookup hlookup, by rw [hlookup]; rfl⟩

theorem not_mem_pending_of_lookup {o : Option (Option Expr)}
    (h : s.targets.lookup span = o) (ho : o ≠ some none) : span ∉ pending s :=
  fun hpending => ho (h.symm.trans (mem_pending.mp hpending))

/-- A target that is shared now has to be walked. -/
theorem pending_share (span : Span) :
    pending { s with targets := (span, none) :: s.targets } = insert span (pending s) := by
  ext other
  rw [Finset.mem_insert, mem_pending, mem_pending, List.lookup_cons]
  split
  · rename_i heq
    exact ⟨fun _ => .inl (eq_of_beq heq), fun _ => rfl⟩
  · rename_i hne
    rw [or_iff_right (ne_of_beq_false hne)]

/-- A target that was walked is no longer to be. -/
theorem pending_walked (span : Span) (walked : Expr) :
    pending { s with targets := (span, some walked) :: s.targets } = (pending s).erase span := by
  ext other
  rw [Finset.mem_erase, mem_pending, mem_pending, List.lookup_cons]
  split
  · rename_i heq
    exact ⟨nofun, fun h => absurd (eq_of_beq heq) h.1⟩
  · rename_i hne
    rw [and_iff_right (ne_of_beq_false hne)]

/-! ## What is due -/

section Due

variable {credit : Credit} {s : PassState} {span : Span}

theorem due_congr (h : s'.targets = s.targets) : due credit s' = due credit s := by
  unfold due pending isPending
  rw [h]

theorem due_mono {credit' : Credit} (h : credit ≤ credit') (s : PassState) : due credit s ≤ due credit' s :=
  Finset.sum_le_sum fun span _ => h span

theorem due_of_pending (h : span ∈ pending s) : due credit s = credit span + due (credit.erase span) s := by
  unfold due
  rw [← Finset.add_sum_erase _ credit h, ← Finset.add_sum_erase _ (credit.erase span) h, Credit.erase_self,
    Nat.zero_add]
  refine congrArg _ (Finset.sum_congr rfl fun other hother => ?_)
  exact (Credit.erase_of_ne (Finset.ne_of_mem_erase hother)).symm

/-- Walking a target takes up its credit. -/
theorem due_walked (walked : Expr) :
    due credit { s with targets := (span, some walked) :: s.targets } = due (credit.erase span) s := by
  unfold due
  rw [pending_walked, ← Finset.sum_erase (pending s) (credit.erase_self span)]
  refine Finset.sum_congr rfl fun other hother => ?_
  exact (Credit.erase_of_ne (Finset.ne_of_mem_erase hother)).symm

theorem due_raise_of_not_pending (h : span ∉ pending s) (n : Nat) :
    due (credit.raise span n) s = due credit s := by
  refine Finset.sum_congr rfl fun other hother => Credit.raise_of_ne n ?_
  rintro rfl
  exact h hother

theorem due_raise_of_pending (h : span ∈ pending s) (n : Nat) :
    due (credit.raise span n) s = due credit s + (n - credit span) := by
  have hcredit : due credit s = _ := due_of_pending h
  have hraise : due (credit.raise span n) s = _ := due_of_pending h
  rw [Credit.erase_raise, Credit.raise_self] at hraise
  omega

/-- Sharing a target puts its weight aside. -/
theorem due_share (h : s.targets.lookup span = none) (n : Nat) :
    due (credit.raise span n) { s with targets := (span, none) :: s.targets }
      = due credit s + max (credit span) n := by
  have hnot := not_mem_pending_of_lookup h nofun
  unfold due
  rw [pending_share, Finset.sum_insert hnot, Credit.raise_self, Nat.add_comm]
  exact congrArg (· + _) (due_raise_of_not_pending hnot n)

end Due

namespace Held

variable {credit : Credit} {s : PassState}

theorem congr (h : Held credit s) (htargets : s'.targets = s.targets) : Held credit s' :=
  ⟨by rw [htargets]; exact h.shared, by rw [htargets]; exact h.walked⟩

theorem anti {credit' : Credit} (h : Held credit' s) (hle : credit ≤ credit') : Held credit s :=
  ⟨fun span hspan => Nat.le_zero.mp (h.shared span hspan ▸ hle span), h.walked⟩

theorem erase (h : Held credit s) (span : Span) : Held (credit.erase span) s := by
  refine h.anti fun other => ?_
  unfold Credit.erase
  split
  · exact Nat.zero_le _
  · exact Nat.le_refl _

/-- Credit may be held for a target that is noted. -/
theorem setTarget (h : Held (credit.erase span) s) {walked : Option Expr}
    (hwalked : ∀ target, walked = some target → target.span = span) :
    Held credit { s with targets := (span, walked) :: s.targets } := by
  constructor
  · intro other hother
    rw [List.lookup_cons] at hother
    split at hother
    · cases hother
    · rename_i hne
      rw [← h.shared other hother, Credit.erase_of_ne (ne_of_beq_false hne)]
  · intro other target hother
    rw [List.lookup_cons] at hother
    split at hother
    · rename_i heq
      rw [eq_of_beq heq]
      exact hwalked target (Option.some.inj hother)
    · exact h.walked other target hother

theorem raise (h : Held credit s) (hshared : s.targets.lookup span ≠ none) (n : Nat) :
    Held (credit.raise span n) s := by
  refine ⟨fun other hother => ?_, h.walked⟩
  have hne : other ≠ span := by
    rintro rfl
    exact hshared hother
  rw [Credit.raise_of_ne n hne, h.shared other hother]

end Held

/-! ## Steps -/

variable {α β : Type} {credit : Credit} {s : PassState} {w w' : Nat}

/-- A step from `s` that comes upon no more than `w` chains, besides those that it takes up credit for, and that `q`
    does the same as. -/
structure Pays (credit : Credit) (s : PassState) (p q : Pass α) (w : Nat) : Prop where
  bound : ∀ r, p s = some r → Held credit s →
    Held credit r.2 ∧ cost r.2 + due credit r.2 ≤ cost s + due credit s + w
  grows : ∀ r, p s = some r → s.replaced ≤ r.2.replaced
  deepens : ∀ r, p s = some r → q s = some r

/-- A step that pays, that gives `a` if it replaces nothing, and that replaces nothing if `S` holds. -/
structure Spends (credit : Credit) (s : PassState) (p q : Pass α) (a : α) (w : Nat) (S : Prop) : Prop extends
    Pays credit s p q w where
  keeps : ∀ r, p s = some r → s.targets = [] → r.2.replaced = s.replaced → r.1 = a ∧ r.2.targets = []
  settled : S → ∀ r, p s = some r → s.targets = [] → r.2.replaced = s.replaced

theorem exists_of_bind {p : Pass α} {f : α → Pass β} {r : β × PassState} (h : (p >>= f) s = some r) :
    ∃ a s', p s = some (a, s') ∧ f a s' = some r := by
  obtain ⟨⟨a, s'⟩, hp, hf⟩ := Option.bind_eq_some_iff.mp h
  exact ⟨a, s', hp, hf⟩

theorem run_bind {p : Pass α} {a : α} (h : p s = some (a, s')) (f : α → Pass β) :
    (p >>= f) s = f a s' := by
  change (p s).bind (fun r => f r.1 r.2) = _
  rw [h]
  rfl

namespace Pays

theorem bind {p q : Pass α} {f g : α → Pass β} (hp : Pays credit s p q w)
    (hf : ∀ a s', Pays credit s' (f a) (g a) w') : Pays credit s (p >>= f) (q >>= g) (w + w') := by
  constructor
  · intro r hr hheld
    obtain ⟨a, s', hpr, hfr⟩ := exists_of_bind hr
    obtain ⟨hheld', hle⟩ := hp.bound _ hpr hheld
    obtain ⟨hheld'', hle'⟩ := (hf a s').bound r hfr hheld'
    exact ⟨hheld'', by dsimp only at hle; omega⟩
  · intro r hr
    obtain ⟨a, s', hpr, hfr⟩ := exists_of_bind hr
    exact (hp.grows _ hpr).trans ((hf a s').grows r hfr)
  · intro r hr
    obtain ⟨a, s', hpr, hfr⟩ := exists_of_bind hr
    exact (run_bind (hp.deepens _ hpr) g).trans ((hf a s').deepens r hfr)

theorem mono {p q : Pass α} (h : Pays credit s p q w) (hle : w ≤ w') : Pays credit s p q w' where
  bound r hr hheld := (h.bound r hr hheld).imp_right fun hbound => hbound.trans (Nat.add_le_add_left hle _)
  grows := h.grows
  deepens := h.deepens

/-- The cost of what was done on the way to another state, with the same targets. -/
theorem first {p : Pass α} {f g : α → Pass β} {a : α} (hrun : p s = some (a, s'))
    (htargets : s'.targets = s.targets) (hreplaced : s.replaced ≤ s'.replaced) (hcost : cost s' + w' ≤ cost s + w)
    (h : Pays credit s' (f a) (g a) w') : Pays credit s (p >>= f) (p >>= g) w := by
  have hf := run_bind hrun f
  have hg := run_bind hrun g
  constructor
  · intro r hr hheld
    obtain ⟨hheld', hle⟩ := h.bound r (hf ▸ hr) (hheld.congr htargets)
    have hdue : due credit s' = due credit s := due_congr htargets
    exact ⟨hheld', by omega⟩
  · exact fun r hr => hreplaced.trans (h.grows r (hf ▸ hr))
  · exact fun r hr => hg.trans (h.deepens r (hf ▸ hr))

end Pays

namespace Spends

variable {S S' : Prop}

theorem mono {p q : Pass α} {a : α} (h : Spends credit s p q a w S) (hle : w ≤ w') : Spends credit s p q a w' S :=
  ⟨h.toPays.mono hle, h.keeps, h.settled⟩

theorem imp {p q : Pass α} {a : α} (h : Spends credit s p q a w S) (hS : S' → S) : Spends credit s p q a w S' :=
  ⟨h.toPays, h.keeps, fun h' => h.settled (hS h')⟩

theorem pure (a : α) : Spends credit s (Pure.pure a) (Pure.pure a) a 0 S := by
  refine ⟨⟨?_, ?_, fun _ hr => hr⟩, ?_, ?_⟩
  · rintro _ ⟨⟩ hheld
    exact ⟨hheld, Nat.le_refl _⟩
  · rintro _ ⟨⟩
    exact Nat.le_refl _
  · rintro _ ⟨⟩ htargets _
    exact ⟨rfl, htargets⟩
  · rintro _ _ ⟨⟩ _
    rfl

theorem failure (q : Pass α) (a : α) : Spends credit s Alternative.failure q a w S :=
  ⟨⟨nofun, nofun, nofun⟩, nofun, fun _ => nofun⟩

theorem bind {p q : Pass α} {a : α} {f f' : α → Pass β} {g : α → β} {b : β} (hp : Spends credit s p q a w S)
    (hf : ∀ a s', Spends credit s' (f a) (f' a) (g a) w' S') (hb : g a = b) :
    Spends credit s (p >>= f) (q >>= f') b (w + w') (S ∧ S') := by
  subst hb
  refine ⟨hp.toPays.bind fun a s' => (hf a s').toPays, ?_, ?_⟩
  · intro r hr htargets hreplaced
    obtain ⟨a', s', hpr, hfr⟩ := exists_of_bind hr
    -- The count never falls, so that neither step has replaced anything.
    have hgrows := hp.grows _ hpr
    have hgrows' := (hf a' s').grows r hfr
    dsimp only at hgrows
    obtain ⟨rfl, htargets'⟩ := hp.keeps _ hpr htargets (by dsimp only; omega)
    exact (hf a' s').keeps r hfr htargets' (by omega)
  · rintro ⟨hS, hS'⟩ r hr htargets
    obtain ⟨a', s', hpr, hfr⟩ := exists_of_bind hr
    have hsame := hp.settled hS _ hpr htargets
    exact ((hf a' s').settled hS' r hfr (hp.keeps _ hpr htargets hsame).2).trans hsame

/-- The last of some steps, whose result is made a part of something. -/
theorem map {p q : Pass α} {a : α} {g : α → β} {b : β} (hp : Spends credit s p q a w S) (hb : g a = b) :
    Spends credit s (p >>= fun a => Pure.pure (g a)) (q >>= fun a => Pure.pure (g a)) b w S :=
  (bind hp (fun a _ => pure (S := True) (g a)) hb).imp fun h => ⟨h, trivial⟩

/-- The members of a list, with what is said of lists by recursion. -/
theorem mapM {f f' : α → Pass β} {g : α → β} {weight : α → Nat} {weights : List α → Nat} {T : α → Prop}
    {Ts : List α → Prop} (h : ∀ a s, Spends credit s (f a) (f' a) (g a) (weight a) (T a)) (hnil : weights [] = 0)
    (hcons : ∀ a l, weights (a :: l) = weight a + weights l) (hTs : ∀ a l, Ts (a :: l) → T a ∧ Ts l) (l : List α) :
    Spends credit s (l.mapM f) (l.mapM f') (l.map g) (weights l) (Ts l) := by
  induction l generalizing s with
  | nil =>
    rw [hnil]
    exact .pure []
  | cons a l ih =>
    rw [List.mapM_cons, List.mapM_cons, hcons]
    exact (bind (h a s) (fun _ _ => map ih rfl) rfl).imp (hTs a l)

theorem mapM_id {f f' : α → Pass α} {weight : α → Nat} {weights : List α → Nat} {T : α → Prop}
    {Ts : List α → Prop} (h : ∀ a s, Spends credit s (f a) (f' a) a (weight a) (T a)) (hnil : weights [] = 0)
    (hcons : ∀ a l, weights (a :: l) = weight a + weights l) (hTs : ∀ a l, Ts (a :: l) → T a ∧ Ts l) (l : List α) :
    Spends credit s (l.mapM f) (l.mapM f') l (weights l) (Ts l) := by
  have hl := mapM (s := s) (g := id) h hnil hcons hTs l
  rwa [List.map_id] at hl

theorem mapM? {f f' : α → Pass α} {weight : α → Nat} {weight? : Option α → Nat} {T : α → Prop} {T? : Option α → Prop}
    (h : ∀ a s, Spends credit s (f a) (f' a) a (weight a) (T a)) (hnone : weight? none = 0)
    (hsome : ∀ a, weight? (some a) = weight a) (hT? : ∀ a, T? (some a) → T a) (o : Option α) :
    Spends credit s (o.mapM f) (o.mapM f') o (weight? o) (T? o) := by
  cases o with
  | none =>
    rw [hnone]
    exact .pure none
  | some a =>
    have hmap (f : α → Pass α) : (some a).mapM f = f a >>= fun b => Pure.pure (some b) := map_eq_pure_bind _ _
    rw [hmap, hmap, hsome]
    exact .imp (.map (h a s) rfl) (hT? a)

theorem first {p : Pass α} {f g : α → Pass β} {a : α} {b : β} (hrun : p s = some (a, s'))
    (htargets : s'.targets = s.targets) (hreplaced : s'.replaced = s.replaced) (hcost : cost s' + w' ≤ cost s + w)
    (h : Spends credit s' (f a) (g a) b w' S) : Spends credit s (p >>= f) (p >>= g) b w S := by
  have hf := run_bind hrun f
  refine ⟨.first hrun htargets hreplaced.ge hcost h.toPays, fun r hr hnone hsame => ?_, fun hS r hr hnone => ?_⟩
  · exact h.keeps r (hf ▸ hr) (htargets.trans hnone) (hsame.trans hreplaced.symm)
  · exact (h.settled hS r (hf ▸ hr) (htargets.trans hnone)).trans hreplaced

/-! ## Compiling -/

/-- A chain that is compiled or fails costs one, whatever becomes of it. -/
theorem compile {ctx : PassContext} {call : Expr} {f g : Attempt → Pass β} {b : β}
    (hS : S → ctx.names.compiles placement.isStatement call = false)
    (hother : ctx.names.recognizes call = false → Spends credit s (f .notAChain) (g .notAChain) b w S)
    (hfailed : ctx.names.recognizes call = true →
      ∃ w', w' + 1 ≤ w ∧ ∀ s, Spends credit s (f .failed) (g .failed) b w' S)
    (hcode : ∀ m code ordinal s', s'.targets = s.targets → ctx.names.recognizes call = true →
      ctx.names.read call = .ok (some m) → m.generate ctx.options placement ordinal = .ok code →
      ∃ w', w' + 1 ≤ w ∧ Pays credit s' (f (.generated code)) (g (.generated code)) w') :
    Spends credit s (Pass.compile ctx call placement >>= f) (Pass.compile ctx call placement >>= g) b w S := by
  obtain ⟨attempt, s', hrun, hattempt⟩ := compile_attempted ctx call placement s
  cases hattempt with
  | notAChain hrecognizes => exact .first hrun rfl rfl (Nat.le_refl _) (hother hrecognizes)
  | failed queue nextOrdinal minted hrecognizes _ hlength =>
    obtain ⟨w', hle, hspends⟩ := hfailed hrecognizes
    refine .first hrun rfl rfl ?_ (hspends _)
    unfold cost
    dsimp only
    omega
  | generated m code minted hcompiles hread hgenerate =>
    have hrecognizes : ctx.names.recognizes call = true := by
      by_contra hnot
      rw [MatchNames.compiles_of_not_recognizes (eq_false_of_ne_true hnot)] at hcompiles
      cases hcompiles
    obtain ⟨w', hle, hpays⟩ := hcode m code s.nextOrdinal
      { s with nextOrdinal := s.nextOrdinal + 1, replaced := s.replaced + 1, minted } rfl hrecognizes hread hgenerate
    refine ⟨.first hrun rfl (Nat.le_succ _) ?_ hpays, fun r hr _ hsame => ?_, fun h => ?_⟩
    · unfold cost
      dsimp only
      omega
    · -- The chain was replaced, so that the count has risen.
      have hgrows := hpays.grows r (run_bind hrun f ▸ hr)
      dsimp only at hgrows
      omega
    · cases (hS h).symm.trans hcompiles

end Spends

/-! ## Targets -/

/-- A placement with its target as it was written or as what has become of it. -/
inductive Current (targets : List (Span × Option Expr)) : Placement → Placement → Prop where
  | same (placement : Placement) : Current targets placement placement
  | walked {target walked : Expr} : targets.lookup target.span = some (some walked) →
      Current targets (.assignment target) (.assignment walked)

theorem currentPlacement_run (placement : Placement) (s : PassState) :
    ∃ placement', currentPlacement placement s = some (placement', s) ∧ Current s.targets placement placement' := by
  cases placement with
  | assignment target =>
    cases hname : target.identName?.isSome with
    | true => exact ⟨_, currentPlacement_of_shared (sharedTarget?_of_name hname s), .same _⟩
    | false =>
      have hrun := currentPlacement_of_shared (sharedTarget?_of_not_name hname s)
      rcases hlookup : s.targets.lookup target.span with _ | _ | walked
      · exact ⟨_, by rw [hrun, hlookup], .same _⟩
      · exact ⟨_, by rw [hrun, hlookup], .same _⟩
      · exact ⟨_, by rw [hrun, hlookup], .walked hlookup⟩
  | _ => exact ⟨_, rfl, .same _⟩

theorem Spends.currentPlacement {f g : Placement → Pass β} {b : β} {S : Prop}
    (h : ∀ placement', Current s.targets placement placement' →
      Spends credit s (f placement') (g placement') b w S) :
    Spends credit s (Pass.currentPlacement placement >>= f) (Pass.currentPlacement placement >>= g) b w S := by
  obtain ⟨placement', hrun, hcurrent⟩ := currentPlacement_run placement s
  exact .first hrun rfl rfl (Nat.le_refl _) (h placement' hcurrent)

/-- A target is assigned as it was written, unless it was walked before. -/
theorem Current.assignment (h : Current s.targets placement (.assignment target))
    (hheld : Held credit s) :
    placement = .assignment target ∨ ∃ walked, s.targets.lookup target.span = some (some walked) := by
  cases h with
  | walked hlookup => exact .inr ⟨target, by rw [hheld.walked _ _ hlookup]; exact hlookup⟩
  | same => exact .inl rfl

/-- With the credit for a shared target raised to its weight, no more is due than what it exceeded the credit
    by. -/
theorem shareTarget_run
    (hname : target.identName?.isSome = false) (hcurrent : Current s.targets placement (.assignment target))
    {n : Nat} (hn : n = Weight.expr matcher (credit.erase target.span) false target) :
    ∃ s', shareTarget (.assignment target) s = some ((), s') ∧ s'.replaced = s.replaced ∧ cost s' = cost s ∧
      (Held credit s → Held (credit.raise target.span n) s' ∧
        due (credit.raise target.span n) s' ≤ due credit s + placement.excess matcher credit) := by
  have hrun := shareTarget_of_shared (sharedTarget?_of_not_name hname s) hname
  have hexcess (hheld : Held credit s) (hnot : ∀ walked, s.targets.lookup target.span ≠ some (some walked)) :
      placement.excess matcher credit = n - credit target.span := by
    obtain rfl | ⟨walked, hwalked⟩ := hcurrent.assignment hheld
    · rw [hn]
      rfl
    · exact absurd hwalked (hnot walked)
  rcases hlookup : s.targets.lookup target.span with _ | _ | walked
  · refine ⟨{ s with targets := (target.span, none) :: s.targets }, by rw [hrun, hlookup]; rfl, rfl, rfl,
      fun hheld => ⟨.setTarget ?_ nofun, ?_⟩⟩
    · rw [Credit.erase_raise]
      exact hheld.erase _
    · rw [due_share hlookup, hexcess hheld (by rw [hlookup]; nofun), hheld.shared _ hlookup]
      omega
  · refine ⟨s, by rw [hrun, hlookup]; rfl, rfl, rfl, fun hheld => ⟨hheld.raise (by rw [hlookup]; nofun) n, ?_⟩⟩
    rw [due_raise_of_pending (mem_pending.mpr hlookup), hexcess hheld (by rw [hlookup]; nofun)]
  · refine ⟨s, by rw [hrun, hlookup]; rfl, rfl, rfl, fun hheld => ⟨hheld.raise (by rw [hlookup]; nofun) n, ?_⟩⟩
    rw [due_raise_of_not_pending (not_mem_pending_of_lookup hlookup nofun)]
    exact Nat.le_add_right _ _

/-- What follows once a target is shared can draw on credit for it. -/
theorem Pays.shareTarget {placement placement' : Placement}
    (hcurrent : Current s.targets placement placement') {p q : Pass β} {weight : Credit → Nat}
    (hp : ∀ credit s, Pays credit s p q (weight credit))
    (hweight : ∀ credit', credit ≤ credit' →
      (∀ target, placement' = .assignment target →
        Weight.expr matcher (credit'.erase target.span) false target ≤ credit' target.span) →
      weight credit' ≤ w) :
    Pays credit s (Pass.shareTarget placement' >>= fun _ => p) (Pass.shareTarget placement' >>= fun _ => q)
      (placement.excess matcher credit + w) := by
  -- Where there is no target that could hold a chain, nothing is put aside.
  have hplain (hrun : Pass.shareTarget placement' s = some ((), s))
      (hcovered : ∀ target, placement' = .assignment target →
        Weight.expr matcher (credit.erase target.span) false target = 0) :
      Pays credit s (Pass.shareTarget placement' >>= fun _ => p) (Pass.shareTarget placement' >>= fun _ => q)
        (placement.excess matcher credit + w) := by
    have hle := hweight credit (fun _ => Nat.le_refl _) fun target htarget => by rw [hcovered target htarget]; omega
    exact .first hrun rfl (Nat.le_refl _) (by omega) (hp credit s)
  cases placement' with
  | assignment target =>
    cases hname : target.identName?.isSome with
    | true =>
      cases target with
      | ident =>
        refine hplain rfl fun _ htarget => ?_
        cases htarget
        rfl
      | _ => cases hname
    | false =>
      obtain ⟨s', hrun, hreplaced, hcost, hshare⟩ := shareTarget_run hname hcurrent rfl
      have hraise := credit.le_raise target.span (Weight.expr matcher (credit.erase target.span) false target)
      have hle := hweight _ hraise fun _ htarget => by
        cases htarget
        rw [Credit.erase_raise, Credit.raise_self]
        exact Nat.le_max_right _ _
      constructor
      · intro r hr hheld
        obtain ⟨_, _, hshared, hpr⟩ := exists_of_bind hr
        cases hrun.symm.trans hshared
        obtain ⟨hheld', hdue⟩ := hshare hheld
        obtain ⟨hheld'', hbound⟩ := (hp _ s').bound r hpr hheld'
        have hmono := due_mono hraise r.2
        exact ⟨hheld''.anti hraise, by omega⟩
      · intro r hr
        obtain ⟨_, _, hshared, hpr⟩ := exists_of_bind hr
        cases hrun.symm.trans hshared
        exact hreplaced ▸ (hp credit s').grows r hpr
      · intro r hr
        obtain ⟨_, _, hshared, hpr⟩ := exists_of_bind hr
        exact (run_bind hshared _).trans ((hp credit _).deepens r hpr)
  | _ => exact hplain rfl nofun

/-- A target is walked at the cost of its weight, or on the credit for it if it is shared. -/
theorem Spends.walkTarget {walk walk' : Expr → Pass Expr} {S : Prop}
    (hwalk : ∀ credit s,
      Spends credit s (walk target) (walk' target) target (Weight.expr matcher credit false target) S)
    (hspan : ∀ s r, walk target s = some r → r.1.span = target.span) :
    Spends credit s (Pass.walkTarget walk target) (Pass.walkTarget walk' target) target
      (Weight.expr matcher (credit.erase target.span) false target - credit target.span) S := by
  cases hname : target.identName?.isSome with
  | true =>
    cases target with
    | ident => exact (hwalk credit s).mono (Nat.zero_le _)
    | _ => cases hname
  | false =>
    have hrun (walk : Expr → Pass Expr) : Pass.walkTarget walk target s = _ :=
      walkTarget_of_shared (sharedTarget?_of_not_name hname s)
    have hshared (o : Option Expr) (hlookup : s.targets.lookup target.span = some o) : s.targets ≠ [] := by
      intro htargets
      rw [htargets] at hlookup
      cases hlookup
    rcases hlookup : s.targets.lookup target.span with _ | _ | walked
    · have hrun (walk : Expr → Pass Expr) : Pass.walkTarget walk target s = walk target s := by rw [hrun, hlookup]
      have hspends := hwalk credit s
      refine ⟨⟨fun r hr hheld => ?_, fun r hr => hspends.grows r (hrun walk ▸ hr), fun r hr => ?_⟩,
        fun r hr => hspends.keeps r (hrun walk ▸ hr), fun hS r hr => hspends.settled hS r (hrun walk ▸ hr)⟩
      · have hzero := hheld.shared _ hlookup
        rw [Credit.erase_eq_self hzero, hzero, Nat.sub_zero]
        exact hspends.bound r (hrun walk ▸ hr) hheld
      · exact (hrun walk').trans (hspends.deepens r (hrun walk ▸ hr))
    · simp only [hlookup] at hrun
      have hsteps (r : Expr × PassState) (hr : Pass.walkTarget walk target s = some r) :
          ∃ walked s', walk target s = some (walked, s') ∧
            r = (walked, { s' with targets := (target.span, some walked) :: s'.targets }) := by
        obtain ⟨walked, s', hwalked, hset⟩ := exists_of_bind (hrun walk ▸ hr)
        cases hset
        exact ⟨walked, s', hwalked, rfl⟩
      refine ⟨⟨fun r hr hheld => ?_, fun r hr => ?_, fun r hr => ?_⟩,
        fun r hr htargets => absurd htargets (hshared _ hlookup), fun _ r hr htargets => absurd htargets (hshared _ hlookup)⟩
      · obtain ⟨walked, s', hwalked, rfl⟩ := hsteps r hr
        -- The walk itself has no credit for the target, which is taken up when it is done.
        obtain ⟨hheld', hbound⟩ := (hwalk (credit.erase target.span) s).bound _ hwalked (hheld.erase _)
        have hdue : due credit s = _ := due_of_pending (mem_pending.mpr hlookup)
        dsimp only at hheld' hbound ⊢
        refine ⟨hheld'.setTarget ?_, ?_⟩
        · rintro _ ⟨⟩
          exact hspan s _ hwalked
        · rw [due_walked]
          change cost s' + _ ≤ _
          omega
      · obtain ⟨walked, s', hwalked, rfl⟩ := hsteps r hr
        exact (hwalk credit s).grows (walked, s') hwalked
      · obtain ⟨walked, s', hwalked, rfl⟩ := hsteps r hr
        exact (hrun walk').trans (run_bind ((hwalk credit s).deepens _ hwalked) _)
    · simp only [hlookup] at hrun
      refine ⟨⟨fun r hr hheld => ?_, fun r hr => ?_, fun r hr => (hrun walk').trans ((hrun walk).symm.trans hr)⟩,
        fun r hr htargets => absurd htargets (hshared _ hlookup), fun _ r hr htargets => absurd htargets (hshared _ hlookup)⟩
      · cases (hrun walk).symm.trans hr
        exact ⟨hheld, Nat.le_add_right _ _⟩
      · cases (hrun walk).symm.trans hr
        exact Nat.le_refl _

end Pass

end MatchChain
