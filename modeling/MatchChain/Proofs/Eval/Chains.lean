import MatchChain.Proofs.Eval.Meaning

/-!
# Chains of accesses and calls

An access evaluates what it reads from, and then finds a property in the value. As a callee it finds
the same, and remembers the value that it was found in. An optional link on null or undefined ends the
whole chain, which is then undefined: `EndsEarly` tells when, by what the parts of the chain give.
-/

set_option autoImplicit false

namespace MatchChain

/-- What an access reads from. -/
def Expr.accessed? : Expr → Option Expr
  | .member _ base _ _ | .index _ base _ _ => some base
  | _ => none

namespace Eval

open Outcome

variable {α β : Type}

/-- Goes on with a chain, unless it has ended. -/
def chained (next : α → Machine → Option (Outcome (Option β))) :
    Option α → Machine → Option (Outcome (Option β))
  | none, m => some (.ok none, m)
  | some a, m => next a m

@[simp] theorem chained_none (next : α → Machine → Option (Outcome (Option β))) (m : Machine) :
    chained next none m = some (.ok none, m) := rfl

@[simp] theorem chained_some (next : α → Machine → Option (Outcome (Option β))) (a : α)
    (m : Machine) : chained next (some a) m = next a m := rfl

/-- What an access finds in a value; none if it is optional and the value null or undefined. -/
noncomputable def found (access : Expr) (target : Value) (m : Machine) :
    Option (Outcome (Option Value)) :=
  match access with
  | .member span _ property optional =>
    if optional && target.isNullish then some (.ok none, m)
    else linked (getProperty target property span) m
  | .index span _ key optional =>
    if optional && target.isNullish then some (.ok none, m)
    else (limit (expr · key) m).bind (andThen fun k m' =>
      linked (getProperty target (m'.heap.text k) span) m')
  | _ => some (.ok none, m)

theorem limit_expr_of_link (e : Expr) (m : Machine) :
    limit (expr · e) m
      = (limit (link · e) m).bind (andThen fun v m' => some (.ok (v.getD .undefined), m')) := by
  cases h : isChained e with
  | true => exact limit_expr_chain h m
  | false =>
    rw [limit_link_start h]
    rcases limit (expr · e) m with _ | ⟨_ | v, m'⟩ <;> rfl

theorem limit_link_access {e object : Expr} (h : e.accessed? = some object) (m : Machine) :
    limit (link · e) m = (limit (link · object) m).bind (andThen (chained (found e))) := by
  cases e <;> cases h
  · rw [limit_link_member]
    congr 2
    funext target m'
    cases target <;> rfl
  · rw [limit_link_index]
    congr 2
    funext target m'
    cases target <;> rfl

/-! ## Callees -/

/-- What no access is, is called on undefined. -/
theorem limit_callee_start {e : Expr} (h : e.accessed? = none) (m : Machine) :
    limit (callee · e) m
      = (limit (link · e) m).bind (andThen fun f m' => some (.ok (f.map (·, .undefined)), m')) := by
  have hstep : ∀ n, callee (n + 1) e = link n e >>= fun f => pure (f.map (·, .undefined)) := by
    intro n
    cases e <;> first | rfl | cases h
  rw [limit_succ]
  simp only [hstep]
  rw [(growing_link e).limit_bind]
  simp only [limit_pure]

/-- An access is called on what it reads from. -/
theorem limit_callee_access {e object : Expr} (h : e.accessed? = some object) (m : Machine) :
    limit (callee · e) m = (limit (link · object) m).bind (andThen (chained fun target m' =>
      (found e target m').bind (andThen fun f m'' => some (.ok (f.map (·, target)), m'')))) := by
  have hread : ∀ (target : Value) (property : String) (span : Span) (m' : Machine),
      limit (fun _ => getProperty target property span >>= fun f => pure (some (f, target))) m'
        = (linked (getProperty target property span) m').bind
            (andThen fun f m'' => some (.ok (f.map (·, target)), m'')) := by
    intro target property span m'
    rw [limit_const_bind, linked, bind_andThen_bind]
    simp only [limit_pure]
    rfl
  cases e <;> cases h
  · rw [limit_succ]
    simp only [Eval.callee]
    rw [(growing_link object).limit_bind]
    congr 2
    funext target m'
    cases target with
    | none => rw [limit_pure]; rfl
    | some target =>
      dsimp only [chained, found]
      split
      · rw [limit_pure]; rfl
      · exact hread _ _ _ m'
  · rename_i span key optional
    rw [limit_succ]
    simp only [Eval.callee]
    rw [(growing_link object).limit_bind]
    congr 2
    funext target m'
    cases target with
    | none => rw [limit_pure]; rfl
    | some target =>
      dsimp only [chained, found]
      split
      · rw [limit_pure]; rfl
      · rw [(growing_expr key).limit_bind, bind_andThen_bind]
        congr 2
        funext k m''
        rw [limit_const_bind, run_text]
        exact hread _ _ _ m''

/-- As a link, a callee is the function that it gives. -/
theorem limit_link_of_callee (e : Expr) (m : Machine) :
    limit (link · e) m
      = (limit (callee · e) m).bind (andThen fun f m' => some (.ok (f.map (·.1)), m')) := by
  cases h : e.accessed? with
  | none =>
    rw [limit_callee_start h, bind_andThen_bind]
    rcases limit (link · e) m with _ | ⟨_ | f, m'⟩
    · rfl
    · rfl
    · cases f <;> rfl
  | some object =>
    rw [limit_link_access h, limit_callee_access h, bind_andThen_bind]
    rcases limit (link · object) m with _ | ⟨_ | target, m'⟩
    · rfl
    · rfl
    · cases target with
      | none => rfl
      | some target =>
        simp only [Option.bind_some, andThen_ok, chained_some]
        rw [bind_andThen_bind]
        rcases found e target m' with _ | ⟨_ | f, m''⟩
        · rfl
        · rfl
        · cases f <;> rfl

/-- The value on which a call with the callee is made: what an access reads from, else undefined. -/
def IsReceiver (m : Machine) (fn : Expr) (receiver : Value) : Prop :=
  match fn.accessed? with
  | some object => ∃ m', limit (expr · object) m = some (.ok receiver, m')
  | none => receiver = .undefined

theorem isReceiver_of_callee {fn : Expr} {m m' : Machine} {f receiver : Value}
    (h : limit (callee · fn) m = some (.ok (some (f, receiver)), m')) : IsReceiver m fn receiver := by
  unfold IsReceiver
  cases hfn : fn.accessed? with
  | none =>
    rw [limit_callee_start hfn] at h
    rcases hlink : limit (link · fn) m with _ | ⟨_ | _ | g, m''⟩ <;> rw [hlink] at h <;> cases h
    rfl
  | some object =>
    rw [limit_callee_access hfn] at h
    rcases hlink : limit (link · object) m with _ | ⟨_ | _ | target, m''⟩ <;> rw [hlink] at h
    · cases h
    · cases h
    · cases h
    · -- the access remembers its target, whatever it finds there
      simp only [Option.bind_some, andThen_ok, chained_some] at h
      rcases hfound : found fn target m'' with _ | ⟨_ | _ | g, m₃⟩ <;> rw [hfound] at h <;> cases h
      refine ⟨m'', ?_⟩
      rw [limit_expr_of_link, hlink]
      rfl

/-! ## Chains that end early -/

/-- An expression gives null or undefined. -/
def GivesNullish (m : Machine) (e : Expr) : Prop :=
  ∃ v m', v.isNullish = true ∧ limit (expr · e) m = some (.ok v, m')

/-- An optional link of a chain stands on null or undefined. -/
def EndsEarly (m : Machine) : Expr → Prop
  | .member _ inner _ optional | .index _ inner _ optional | .call _ inner _ optional =>
    EndsEarly m inner ∨ optional = true ∧ GivesNullish m inner
  | _ => False

theorem givesNullish_iff (m : Machine) (e : Expr) :
    GivesNullish m e ↔ ∃ v m', limit (link · e) m = some (.ok v, m') ∧ (v.getD .undefined).isNullish = true := by
  unfold GivesNullish
  rw [limit_expr_of_link]
  constructor
  · rintro ⟨v, m', hv, h⟩
    rcases hlink : limit (link · e) m with _ | ⟨_ | w, m''⟩ <;> rw [hlink] at h <;> cases h
    exact ⟨w, m', rfl, hv⟩
  · rintro ⟨v, m', h, hv⟩
    rw [h]
    exact ⟨v.getD .undefined, m', hv, rfl⟩

/-- What goes on after a value ends no chain that none of its steps ends. -/
theorem bind_ne_ended {next : α → Machine → Option (Outcome (Option β))}
    (h : ∀ a m m', next a m ≠ some (.ok none, m')) (o : Option (Outcome α)) (m' : Machine) :
    o.bind (andThen next) ≠ some (.ok none, m') := by
  rcases o with _ | ⟨_ | a, m⟩
  · simp
  · simp
  · exact h a m m'

theorem linked_ne_ended (act : Eval Value) (m m' : Machine) : linked act m ≠ some (.ok none, m') :=
  bind_ne_ended (by simp) _ m'

theorem ended_iff {o : Option (Outcome (Option β))} (h : ∀ m', o ≠ some (.ok none, m')) (optional : Bool)
    (v : Value) (m : Machine) :
    (∃ m', (if optional && v.isNullish then some (.ok none, m) else o) = some (.ok none, m')) ↔
      optional = true ∧ v.isNullish = true := by
  rw [← Bool.and_eq_true]
  split
  · rename_i hended
    exact iff_of_true ⟨m, rfl⟩ hended
  · rename_i hended
    exact iff_of_false (not_exists.mpr h) hended

/-- What follows a chain ends it if the chain has ended, or if it is optional and has null or undefined
    before it. -/
theorem chained_ended_iff (value : α → Value) {next : α → Machine → Option (Outcome (Option β))}
    {optional : Bool} (hnext : ∀ a m, (∃ m', next a m = some (.ok none, m')) ↔
      optional = true ∧ (value a).isNullish = true) (chain : Option (Outcome (Option α))) :
    (∃ m', chain.bind (andThen (chained next)) = some (.ok none, m')) ↔
      (∃ m', chain = some (.ok none, m')) ∨ optional = true ∧
        ∃ a m', chain = some (.ok a, m') ∧ ((a.map value).getD .undefined).isNullish = true := by
  rcases chain with _ | ⟨_ | _ | a, m⟩
  · simp
  · simp
  · simp
  · simpa using hnext a m

theorem limit_link_called (span : Span) (fn : Expr) (arguments : List Expr) (optional : Bool) (m : Machine) :
    limit (link · (.call span fn arguments optional)) m
      = (limit (callee · fn) m).bind (andThen (chained fun f m' =>
          if optional && f.1.isNullish then some (.ok none, m')
          else (limit (args · arguments) m').bind (andThen fun values m'' =>
            (limit (call · f.1 f.2 values span) m'').bind (andThen fun v m₃ => some (.ok (some v), m₃))))) := by
  rw [limit_link_call]
  congr 2
  funext f m'
  cases f <;> rfl

/-- A chain ends early exactly if it gives no link. -/
theorem endsEarly_iff (m : Machine) : ∀ e : Expr,
    EndsEarly m e ↔ ∃ m', limit (link · e) m = some (.ok none, m')
  | .member span inner key optional => by
    have hfound : ∀ target m', (∃ m'', found (.member span inner key optional) target m' = some (.ok none, m'')) ↔
        optional = true ∧ target.isNullish = true :=
      fun target m' => ended_iff (linked_ne_ended _ m') optional target m'
    rw [limit_link_access rfl, chained_ended_iff id hfound, EndsEarly, endsEarly_iff m inner, givesNullish_iff]
    simp
  | .index span inner key optional => by
    have hfound : ∀ target m', (∃ m'', found (.index span inner key optional) target m' = some (.ok none, m'')) ↔
        optional = true ∧ target.isNullish = true := fun target m' =>
      ended_iff (bind_ne_ended (fun k m'' => linked_ne_ended _ m'') (limit (expr · key) m')) optional target m'
    rw [limit_link_access rfl, chained_ended_iff id hfound, EndsEarly, endsEarly_iff m inner, givesNullish_iff]
    simp
  | .call span inner arguments optional => by
    rw [limit_link_called, chained_ended_iff Prod.fst fun f m' =>
      ended_iff (bind_ne_ended (fun values m'' => bind_ne_ended (by simp) _) _) optional f.1 m']
    rw [EndsEarly, endsEarly_iff m inner, givesNullish_iff, limit_link_of_callee inner]
    rcases limit (callee · inner) m with _ | ⟨_ | _ | f, m'⟩ <;> simp
  | .ident .. | .str .. | .num .. | .bigint .. | .bool .. | .null .. | .thisRef .. | .template .. | .array ..
  | .object .. | .func .. | .unary .. | .binary .. | .conditional .. | .assign .. | .construct .. | .spread .. => by
    rw [limit_link_start rfl]
    exact iff_of_false id (not_exists.mpr (bind_ne_ended (by simp) _))

end Eval

end MatchChain
