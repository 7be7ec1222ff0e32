import MatchChain.Proofs.Eval.Chains

/-!
# Optional chains as a whole

A chain is a base with links after it. Where an optional link comes upon null or undefined, the whole chain
is undefined and nothing to the right of that link has run: the machine is the one that the link was reached
in. Where no link does, the marks make no difference.
-/

set_option autoImplicit false

namespace MatchChain

/-- What a chain adds to the expression before it. -/
inductive ChainLink where
  | member (span : Span) (property : String) (optional : Bool)
  | index (span : Span) (key : Expr) (optional : Bool)
  | call (span : Span) (args : List Expr) (optional : Bool)

namespace ChainLink

def onto (e : Expr) : ChainLink → Expr
  | member span property optional => .member span e property optional
  | index span key optional => .index span e key optional
  | call span args optional => .call span e args optional

def isOptional : ChainLink → Bool
  | member _ _ optional | index _ _ optional | call _ _ optional => optional

/-- The link without its mark. -/
def plain : ChainLink → ChainLink
  | member span property _ => member span property false
  | index span key _ => index span key false
  | call span args _ => call span args false

end ChainLink

/-- A base with links after it. -/
def Expr.chain (base : Expr) (links : List ChainLink) : Expr := links.foldl (fun e l => l.onto e) base

namespace Eval

open Outcome

variable {m m' : Machine} {e e' : Expr} {l : ChainLink} {v : Value}

/-- The chain runs up to here and gives a value for the next link to stand on. -/
def Reached (m : Machine) (e : Expr) (v : Value) (m' : Machine) : Prop :=
  limit (link · e) m = some (.ok (some v), m')

/-! ## One link -/

/-- As a callee, a chain gives what it gives as a link. -/
theorem callee_of_link {o : Option Value} (h : limit (link · e) m = some (.ok o, m')) :
    ∃ f, limit (callee · e) m = some (.ok f, m') ∧ f.map (·.1) = o := by
  rw [limit_link_of_callee] at h
  rcases hcallee : limit (callee · e) m with _ | ⟨_ | f, m''⟩ <;> rw [hcallee] at h <;> cases h
  exact ⟨f, rfl, rfl⟩

/-- A chain that has ended goes no further. -/
theorem limit_link_over_ended (h : limit (link · e) m = some (.ok none, m')) (l : ChainLink) :
    limit (link · (l.onto e)) m = some (.ok none, m') := by
  cases l with
  | member | index =>
    rw [ChainLink.onto, limit_link_access rfl, h]
    rfl
  | call =>
    obtain ⟨f, hcallee, hf⟩ := callee_of_link h
    rw [Option.map_eq_none_iff.mp hf] at hcallee
    rw [ChainLink.onto, limit_link_called, hcallee]
    rfl

/-- An optional link on null or undefined ends the chain where it is. -/
theorem limit_link_over_nullish (hl : l.isOptional = true) (h : Reached m e v m') (hv : v.isNullish = true) :
    limit (link · (l.onto e)) m = some (.ok none, m') := by
  unfold Reached at h
  cases l <;> obtain rfl := hl
  · rw [ChainLink.onto, limit_link_access rfl, h]
    simp [found, hv]
  · rw [ChainLink.onto, limit_link_access rfl, h]
    simp [found, hv]
  · obtain ⟨f, hcallee, hf⟩ := callee_of_link h
    obtain ⟨⟨_, receiver⟩, rfl, rfl⟩ := Option.map_eq_some_iff.mp hf
    rw [ChainLink.onto, limit_link_called, hcallee]
    simp [hv]

/-- Two chains run alike, read and called. -/
structure RunAlike (m : Machine) (e e' : Expr) : Prop where
  link : limit (link · e) m = limit (link · e') m
  callee : limit (callee · e) m = limit (callee · e') m

theorem RunAlike.access {access access' : Expr} (h : RunAlike m e e') (ha : access.accessed? = some e)
    (ha' : access'.accessed? = some e')
    (hfound : ∀ v m', Reached m e v m' → found access v m' = found access' v m') : RunAlike m access access' := by
  unfold Reached at hfound
  constructor
  · rw [limit_link_access ha, limit_link_access ha', ← h.link]
    rcases hlink : limit (Eval.link · e) m with _ | ⟨_ | _ | v, m'⟩
    · rfl
    · rfl
    · rfl
    · exact hfound v m' hlink
  · rw [limit_callee_access ha, limit_callee_access ha', ← h.link]
    rcases hlink : limit (Eval.link · e) m with _ | ⟨_ | _ | v, m'⟩
    · rfl
    · rfl
    · rfl
    · simp [hfound v m' hlink]

/-- Without its mark a link does the same, unless it stands on null or undefined. -/
theorem RunAlike.onto (h : RunAlike m e e') (l : ChainLink)
    (hl : l.isOptional = true → ∀ v m', Reached m e v m' → v.isNullish = false) :
    RunAlike m (l.onto e) (l.plain.onto e') := by
  have hgoes : ∀ v m', Reached m e v m' → (l.isOptional && v.isNullish) = false := by
    intro v m' hv
    cases hoptional : l.isOptional with
    | false => rfl
    | true => exact hl hoptional v m' hv
  cases l with
  | member span property optional =>
    refine h.access rfl rfl fun v m' hv => ?_
    have hv : (optional && v.isNullish) = false := hgoes v m' hv
    simp only [ChainLink.onto, ChainLink.plain, found, hv, Bool.false_and]
  | index span key optional =>
    refine h.access rfl rfl fun v m' hv => ?_
    have hv : (optional && v.isNullish) = false := hgoes v m' hv
    simp only [ChainLink.onto, ChainLink.plain, found, hv, Bool.false_and]
  | call span arguments optional =>
    have hlink : limit (Eval.link · (.call span e arguments optional)) m
        = limit (Eval.link · (.call span e' arguments false)) m := by
      rw [limit_link_called, limit_link_called, ← h.callee]
      rcases hcallee : limit (Eval.callee · e) m with _ | ⟨_ | _ | f, m'⟩
      · rfl
      · rfl
      · rfl
      · have hreached : Reached m e f.1 m' := by rw [Reached, limit_link_of_callee, hcallee]; rfl
        have hf : (optional && f.1.isNullish) = false := hgoes _ _ hreached
        simp only [Option.bind_some, andThen_ok, chained_some, hf, Bool.false_and]
    refine ⟨hlink, ?_⟩
    show limit (Eval.callee · (.call span e arguments optional)) m
      = limit (Eval.callee · (.call span e' arguments false)) m
    rw [limit_callee_start rfl, limit_callee_start rfl, hlink]

/-! ## Whole chains -/

theorem limit_link_chain_ended (h : limit (link · e) m = some (.ok none, m')) (links : List ChainLink) :
    limit (link · (e.chain links)) m = some (.ok none, m') := by
  induction links generalizing e with
  | nil => exact h
  | cons l links ih => exact ih (limit_link_over_ended h l)

/-- An optional link of the chain is reached with this value before it. -/
def ReachesOptional (m : Machine) (base : Expr) (links : List ChainLink) (v : Value) (m' : Machine) : Prop :=
  ∃ before l after, links = before ++ l :: after ∧ l.isOptional = true ∧ Reached m (base.chain before) v m'

theorem RunAlike.chain (h : RunAlike m e e') {links : List ChainLink}
    (hlinks : ∀ v m', ReachesOptional m e links v m' → v.isNullish = false) :
    RunAlike m (e.chain links) (e'.chain (links.map .plain)) := by
  induction links generalizing e e' with
  | nil => exact h
  | cons l links ih =>
    refine ih (h.onto l fun hoptional v m' hv => ?_) ?_
    · exact hlinks v m' ⟨[], l, links, rfl, hoptional, hv⟩
    · rintro v m' ⟨before, l', after, rfl, hoptional, hv⟩
      exact hlinks v m' ⟨l :: before, l', after, rfl, hoptional, hv⟩

/-- An optional chain ends as a whole. If it reaches an optional link on null or undefined, it gives undefined, and
    the machine is the one the link was reached in, whatever stands to the right. If it reaches none, it runs as it
    would without any of its marks. -/
theorem chain_shortCircuits (base : Expr) (links : List ChainLink) (m : Machine) :
    (∀ v m', ReachesOptional m base links v m' → v.isNullish = true →
      limit (expr · (base.chain links)) m = some (.ok .undefined, m')) ∧
    ((∀ v m', ReachesOptional m base links v m' → v.isNullish = false) →
      limit (expr · (base.chain links)) m = limit (expr · (base.chain (links.map .plain))) m) := by
  constructor
  · rintro v m' ⟨before, l, after, rfl, hoptional, hv⟩ hnullish
    have hsplit : base.chain (before ++ l :: after) = (l.onto (base.chain before)).chain after := List.foldl_append
    rw [hsplit, limit_expr_of_link, limit_link_chain_ended (limit_link_over_nullish hoptional hv hnullish)]
    rfl
  · intro h
    rw [limit_expr_of_link, limit_expr_of_link, (RunAlike.chain ⟨rfl, rfl⟩ h).link]

/-- `null?.a[b](c)` gives undefined and leaves the machine as it was, where `b` and `c` have no value. -/
theorem chain_shortCircuits_null :
    limit (expr · (Expr.chain (.null default) [.member default "a" true, .index default (.ident default "b") false,
      .call default [.ident default "c"] false])) Machine.initial = some (.ok .undefined, Machine.initial) := by
  refine (chain_shortCircuits _ _ _).1 .null _ ⟨[], _, _, rfl, rfl, ?_⟩ rfl
  rw [Reached, Expr.chain, List.foldl_nil, limit_link_start rfl, limit_expr_literal rfl]
  rfl

end Eval

end MatchChain
