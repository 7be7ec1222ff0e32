import MatchChain.Proofs.Eval.Steps

/-!
# Runs with as many steps as they need

A run that ends does so with the same result for every larger number of steps, so it has a result of
its own, its *limit*: how it ended and the machine it left, or nothing if it never ends. The limit of
one step after another is made of the limits of both, so what a piece of code does can be read off its
tree without counting.
-/

set_option autoImplicit false

namespace MatchChain

variable {m : Machine}

/-- How a run ended, with the machine that it left. -/
abbrev Outcome (α : Type) := Except EvalError α × Machine

namespace Outcome

variable {α β : Type}

/-- The outcome of a run that did not use up its steps. -/
def ofRun? : Except Halt α × Machine → Option (Outcome α)
  | (.ok a, m) => some (.ok a, m)
  | (.error (.raised e), m) => some (.error e, m)
  | (.error .exhausted, _) => none

/-- The run that ended so. -/
def toRun (r : Outcome α) : Except Halt α × Machine := (r.1.mapError .raised, r.2)

/-- Goes on after a value; an error stays. -/
def andThen (next : α → Machine → Option (Outcome β)) : Outcome α → Option (Outcome β)
  | (.ok a, m) => next a m
  | (.error e, m) => some (.error e, m)

@[simp] theorem andThen_ok (next : α → Machine → Option (Outcome β)) (a : α) (m : Machine) :
    andThen next (.ok a, m) = next a m := rfl

@[simp] theorem andThen_error (next : α → Machine → Option (Outcome β)) (e : EvalError)
    (m : Machine) : andThen next (.error e, m) = some (.error e, m) := rfl

/-- The outcome of a run in a scope or call that is left afterwards. -/
def leaving (back : Machine → Machine) : Option (Outcome α) → Option (Outcome α) :=
  Option.map fun r => (r.1, back r.2)

/-- The outcome of a run whose error is given as a value. -/
def attempted : Option (Outcome α) → Option (Outcome (Except EvalError α)) :=
  Option.map fun r => (.ok r.1, r.2)

theorem leaving_id (o : Option (Outcome α)) : leaving id o = o := by cases o <;> rfl

/-- What goes on after what went on. -/
theorem bind_andThen_bind {γ : Type} (o : Option (Outcome α)) (f : α → Machine → Option (Outcome β))
    (g : β → Machine → Option (Outcome γ)) :
    (o.bind (andThen f)).bind (andThen g) = o.bind (andThen fun a m => (f a m).bind (andThen g)) := by
  rcases o with _ | ⟨_ | a, m⟩ <;> rfl

theorem ofRun?_eq_none {r : Except Halt α × Machine} :
    ofRun? r = none ↔ r.1 = .error .exhausted := by
  rcases r with ⟨(_ | _) | _, m⟩ <;> simp [ofRun?]

theorem toRun_ok (a : α) (m : Machine) : toRun (.ok a, m) = (.ok a, m) := rfl

theorem toRun_error (e : EvalError) (m : Machine) : toRun (.error e, m) = ((.error (.raised e) : Except Halt α), m) :=
  rfl

theorem ofRun?_eq_some {r : Except Halt α × Machine} {o : Outcome α} :
    ofRun? r = some o ↔ r = o.toRun := by
  rcases r with ⟨(_ | _) | _, m⟩ <;> rcases o with ⟨_ | _, m'⟩ <;>
    simp [ofRun?, toRun_ok, toRun_error]

end Outcome

namespace Eval

open Outcome

variable {α β : Type}

/-- More steps only go on where fewer ran out. -/
def Growing (f : Nat → Eval α) : Prop := ∀ ⦃n k : Nat⦄, n ≤ k → Extends (f n) (f k)

theorem growing_const (f : Eval α) : Growing fun _ => f := fun _ _ _ => .refl f

theorem Extends.ofRun? {f g : Eval α} (h : Extends f g) {r : Outcome α}
    (hf : ofRun? (f.run.run m) = some r) : ofRun? (g.run.run m) = some r := by
  rcases h m with he | he
  · rw [ofRun?_eq_none.mpr he] at hf
    cases hf
  · rw [he, hf]

theorem Growing.succ {f : Nat → Eval α} (h : Growing f) : Growing fun n => f (n + 1) :=
  fun _ _ hle => h (Nat.succ_le_succ hle)

/-- From some number of steps on, the run from a machine ends so. -/
def Ends (f : Nat → Eval α) (m : Machine) (r : Outcome α) : Prop :=
  ∃ n, ∀ k ≥ n, ofRun? ((f k).run.run m) = some r

theorem Ends.unique {f : Nat → Eval α} {r s : Outcome α} (hr : Ends f m r)
    (hs : Ends f m s) : r = s := by
  obtain ⟨n, hn⟩ := hr
  obtain ⟨k, hk⟩ := hs
  have h := hn _ (Nat.le_max_left n k)
  rw [hk _ (Nat.le_max_right n k)] at h
  exact (Option.some.inj h).symm

theorem Growing.ends {f : Nat → Eval α} (h : Growing f) {r : Outcome α} {n : Nat}
    (hn : ofRun? ((f n).run.run m) = some r) : Ends f m r := ⟨n, fun _ hk => (h hk).ofRun? hn⟩

open Classical in
/-- The outcome of a run with as many steps as it needs; none for one that never ends. -/
noncomputable def limit (f : Nat → Eval α) (m : Machine) : Option (Outcome α) :=
  if h : ∃ r, Ends f m r then some h.choose else none

theorem limit_eq_some {f : Nat → Eval α} {r : Outcome α} :
    limit f m = some r ↔ Ends f m r := by
  unfold limit
  split
  · rename_i h
    rw [Option.some.injEq]
    exact ⟨fun he => he ▸ h.choose_spec, fun hr => h.choose_spec.unique hr⟩
  · rename_i h
    exact ⟨nofun, fun hr => absurd ⟨r, hr⟩ h⟩

/-- With enough steps a run is its limit. -/
theorem eventually_of_limit {f : Nat → Eval α} {r : Outcome α}
    (h : limit f m = some r) : ∃ n, ∀ k ≥ n, (f k).run.run m = r.toRun := by
  obtain ⟨n, hn⟩ := limit_eq_some.mp h
  exact ⟨n, fun k hk => ofRun?_eq_some.mp (hn k hk)⟩

/-- A run that has given a value goes no further. -/
theorem limit_of_run_ok {f : Nat → Eval α} (hf : Growing f) {a : α} (n : Nat)
    (h : ((f n).run.run m).1 = .ok a) : limit f m = some (.ok a, ((f n).run.run m).2) := by
  have hrun : (f n).run.run m = Outcome.toRun (.ok a, ((f n).run.run m).2) := Prod.ext h rfl
  exact limit_eq_some.mpr (hf.ends (ofRun?_eq_some.mpr hrun))

/-- An operation that takes no steps is its own limit. -/
theorem limit_const (f : Eval α) (m : Machine) :
    limit (fun _ => f) m = Outcome.ofRun? (f.run.run m) := by
  refine Option.ext fun r => ?_
  rw [limit_eq_some]
  exact ⟨fun ⟨n, h⟩ => h n (Nat.le_refl n), fun h => ⟨0, fun _ _ => h⟩⟩

theorem limit_succ (f : Nat → Eval α) : limit f = limit fun n => f (n + 1) := by
  funext m
  refine Option.ext fun r => ?_
  rw [limit_eq_some, limit_eq_some]
  constructor
  · rintro ⟨n, hn⟩
    exact ⟨n, fun k hk => hn (k + 1) (Nat.le_succ_of_le hk)⟩
  · rintro ⟨n, hn⟩
    refine ⟨n + 1, fun k hk => ?_⟩
    obtain ⟨k, rfl⟩ := Nat.exists_eq_add_one.mpr (Nat.lt_of_lt_of_le (Nat.succ_pos n) hk)
    exact hn k (Nat.le_of_succ_le_succ hk)

theorem ofRun?_bind (f : Eval α) (g : α → Eval β) (m : Machine) :
    Outcome.ofRun? ((f >>= g).run.run m)
      = (Outcome.ofRun? (f.run.run m)).bind
          (andThen fun a m' => Outcome.ofRun? ((g a).run.run m')) := by
  rw [run_bind]
  rcases f.run.run m with ⟨(_ | _) | _, m'⟩ <;> rfl

theorem ofRun?_withScope (f : Eval α) (m : Machine) :
    Outcome.ofRun? ((withScope f).run.run m)
      = leaving Machine.left (Outcome.ofRun? (f.run.run m.entered)) := by
  rw [run_withScope]
  rcases f.run.run m.entered with ⟨(_ | _) | _, m'⟩ <;> rfl

theorem ofRun?_withFrame (captured : Nat) (this : Value) (f : Eval α) (m : Machine) :
    Outcome.ofRun? ((withFrame captured this f).run.run m)
      = leaving (·.returned m) (Outcome.ofRun? (f.run.run (m.called captured this))) := by
  rw [run_withFrame]
  rcases f.run.run (m.called captured this) with ⟨(_ | _) | _, m'⟩ <;> rfl

theorem ofRun?_attempt (f : Eval α) (m : Machine) :
    Outcome.ofRun? ((attempt f).run.run m) = attempted (Outcome.ofRun? (f.run.run m)) := by
  rw [run_attempt]
  rcases f.run.run m with ⟨(_ | _) | _, m'⟩ <;> rfl

/-- The limit of one step after another. -/
theorem Growing.limit_bind {f : Nat → Eval α} (hf : Growing f) (g : Nat → α → Eval β) (m : Machine) :
    limit (fun n => f n >>= g n) m
      = (limit f m).bind (andThen fun a => limit fun n => g n a) := by
  refine Option.ext fun r => ?_
  rw [limit_eq_some, Option.bind_eq_some_iff]
  constructor
  · rintro ⟨n, hn⟩
    have hfirst := hn n (Nat.le_refl n)
    rw [ofRun?_bind, Option.bind_eq_some_iff] at hfirst
    obtain ⟨s, hs, hr⟩ := hfirst
    refine ⟨s, limit_eq_some.mpr (hf.ends hs), ?_⟩
    rcases s with ⟨e | a, m'⟩
    · exact hr
    · refine limit_eq_some.mpr ⟨n, fun k hk => ?_⟩
      have hlater := hn k hk
      rw [ofRun?_bind, (hf hk).ofRun? hs] at hlater
      exact hlater
  · rintro ⟨⟨s, m'⟩, hs, hr⟩
    obtain ⟨n, hn⟩ := limit_eq_some.mp hs
    rcases s with e | a
    · exact ⟨n, fun k hk => by rw [ofRun?_bind, hn k hk]; exact hr⟩
    · -- both parts end with the larger of the two numbers of steps
      obtain ⟨l, hl⟩ := limit_eq_some.mp hr
      refine ⟨max n l, fun k hk => ?_⟩
      rw [ofRun?_bind, hn k (Nat.le_trans (Nat.le_max_left n l) hk)]
      exact hl k (Nat.le_trans (Nat.le_max_right n l) hk)

/-- An operation that takes no steps, and what follows it. -/
theorem limit_const_bind (f : Eval α) (g : Nat → α → Eval β) (m : Machine) :
    limit (fun n => f >>= g n) m
      = (Outcome.ofRun? (f.run.run m)).bind (andThen fun a => limit fun n => g n a) := by
  rw [(growing_const f).limit_bind, limit_const]

theorem limit_pure (a : α) : limit (fun _ => pure a) = fun m => some (.ok a, m) :=
  funext fun m => limit_const _ m

/-! ## The interpreter's functions grow -/

theorem growing_expr (e : Expr) : Growing (expr · e) := fun _ _ h =>
  ((allSteady h).expr (D := Machine.anyName) e).extended

theorem growing_link (e : Expr) : Growing (link · e) := fun _ _ h =>
  ((allSteady h).link (D := Machine.anyName) e).extended

theorem growing_callee (e : Expr) : Growing (callee · e) := fun _ _ h =>
  ((allSteady h).callee (D := Machine.anyName) e).extended

theorem growing_args (es : List Expr) : Growing (args · es) := fun _ _ h =>
  ((allSteady h).args (D := Machine.anyName) es).extended

theorem growing_call (f this : Value) (values : List Value) (span : Span) :
    Growing (call · f this values span) := fun _ _ h =>
  ((allSteady h).call (D := Machine.anyName) f this values span).extended

theorem growing_stmt (s : Stmt) : Growing (stmt · s) := fun _ _ h => ((allSteady h).stmt s).extended

theorem growing_stmts (ss : List Stmt) : Growing (stmts · ss) := fun _ _ h =>
  ((allSteady h).stmts ss).extended

end Eval

end MatchChain
