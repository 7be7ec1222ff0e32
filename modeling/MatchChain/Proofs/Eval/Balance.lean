import MatchChain.Proofs.Eval.Run
import MatchChain.Proofs.Eval.Scopes

/-!
# What a run leaves as it was

Wherever a run ends and however it ends, the machine stands where it stood: in the same scopes, with the
same `this` and with as many calls open, and it never had more calls open than it may. What a run does to the
scopes that were there before depends on where it declares names. A block declares them in a scope of its own,
so of the older scopes it can only change the values of variables that are no constants.

`Machine.Balance` relates the machines before and after a run, and `Machine.Declares` says moreover which names
the run may have declared where it stands. A step of the interpreter that keeps to this is `Balanced`. As the
interpreter nests at most a given number of steps, `Extends f g` says that `g` goes on where `f` ran out of steps
and agrees with it everywhere else. Whatever is put together of steps with both properties has them too, and it
is enough to show this of the pair, which is `Steady`.
-/

set_option autoImplicit false

namespace MatchChain

variable {name : String} {v : Variable} {parent : Option Nat}

/-! ## Scopes that are only assigned to -/

/-- What became of a binding: a name is bound if it was, and a constant is what it was. -/
structure Lasts (old new : Option Variable) : Prop where
  bound : new.isSome = old.isSome
  constant : ∀ v, old = some v → v.isMutable = false → new = some v

namespace Lasts

theorem refl (b : Option Variable) : Lasts b b := ⟨rfl, fun _ hv _ => hv⟩

theorem trans {b b' b'' : Option Variable} (h : Lasts b b') (h' : Lasts b' b'') : Lasts b b'' where
  bound := h'.bound.trans h.bound
  constant v hv hconst := h'.constant v (h.constant v hv hconst) hconst

end Lasts

namespace Scopes

/-- The scopes before `base` bind the names that they bound, and their constants have the same values. -/
structure Isolated (base : Nat) (s s' : Scopes) : Prop where
  names : ∀ id < base, ∀ name, (s'.binding id name).isSome = (s.binding id name).isSome
  constants : ∀ id < base, ∀ name v, s.binding id name = some v → v.isMutable = false → s'.binding id name = some v

namespace Isolated

variable {base : Nat} {s s' s'' : Scopes}

theorem of_binding (h : ∀ id < base, ∀ name, s'.binding id name = s.binding id name) : Isolated base s s' where
  names id hid name := by rw [h id hid name]
  constants id hid name v hv _ := by rw [h id hid name, hv]

theorem trans (h : Isolated base s s') (h' : Isolated base s' s'') : Isolated base s s'' where
  names id hid name := (h'.names id hid name).trans (h.names id hid name)
  constants id hid name v hv hconst := h'.constants id hid name v (h.constants id hid name v hv hconst) hconst

/-- A name that is declared in a later scope is none of the earlier ones. -/
theorem define {id : Nat} (h : base ≤ id) (s : Scopes) (name : String) (v : Variable) :
    Isolated base s (s.define id name v) := by
  refine of_binding fun other hother key => ?_
  have hne : ¬(id = other ∧ other < s.count ∧ key = name) := fun hsame => by omega
  rw [binding_define, if_neg hne]

/-- A variable that can be assigned is no constant, whichever scope it is in. -/
theorem assign {owner : Nat} (h : s.binding owner name = some v)
    (hmutable : v.isMutable = true) (base : Nat) (value : Value) :
    Isolated base s (s.define owner name { v with value }) where
  names id _ key := by
    rw [binding_define]
    split
    · rename_i hsame
      rw [← hsame.1, hsame.2.2, h]
      rfl
    · rfl
  constants id _ key u hu hconst := by
    rw [binding_define]
    split
    · rename_i hsame
      rw [← hsame.1, hsame.2.2, h] at hu
      cases hu
      rw [hmutable] at hconst
      cases hconst
    · exact hu

theorem lasts (h : Isolated base s s') {id : Nat} (hid : id < base) (name : String) :
    Lasts (s.binding id name) (s'.binding id name) := ⟨h.names id hid name, h.constants id hid name⟩

end Isolated

/-- The scope that owns a name binds it. -/
theorem binding_of_ownerWithin {s : Scopes} {owner : Nat} :
    ∀ {fuel id : Nat}, s.ownerWithin name fuel id = some (owner, v) → s.binding owner name = some v := by
  intro fuel
  induction fuel with
  | zero => exact nofun
  | succ fuel ih =>
    intro id h
    rw [ownerWithin] at h
    split at h
    · rename_i hbinding
      cases h
      exact hbinding
    · split at h
      · exact ih h
      · cases h

end Scopes

/-! ## Where a machine stands -/

/-- Both machines are in the same place: what only changes while a scope or a call is open. -/
structure Machine.SamePlace (m m' : Machine) : Prop where
  env : m'.env = m.env
  this : m'.this = m.this
  depth : m'.depth = m.depth
  callLimit : m'.callLimit = m.callLimit

namespace Machine.SamePlace

variable {m m' m'' : Machine}

theorem refl (m : Machine) : m.SamePlace m := ⟨rfl, rfl, rfl, rfl⟩

theorem trans (h : m.SamePlace m') (h' : m'.SamePlace m'') : m.SamePlace m'' :=
  ⟨h'.env.trans h.env, h'.this.trans h.this, h'.depth.trans h.depth, h'.callLimit.trans h.callLimit⟩

end Machine.SamePlace

/-- A way back from where one machine stands to where another does, which changes nothing else. -/
def Machine.LeadsBack (back : Machine → Machine) (inner outer : Machine) : Prop :=
  ∀ m, inner.SamePlace m → outer.SamePlace (back m) ∧ (back m).heap = m.heap ∧
    (back m).scopes = m.scopes ∧ (back m).output = m.output

namespace Machine

theorem leadsBack_id (m : Machine) : LeadsBack id m m := fun _ hm => ⟨hm, rfl, rfl, rfl⟩

theorem leadsBack_left (m : Machine) : LeadsBack left m.entered m := fun m' hm =>
  ⟨⟨by rw [left, hm.env]; rfl, hm.this, hm.depth, hm.callLimit⟩, rfl, rfl, rfl⟩

theorem leadsBack_returned (m : Machine) (captured : Nat) (this : Value) :
    LeadsBack (·.returned m) (m.called captured this) m := fun _ hm =>
  ⟨⟨rfl, rfl, congrArg (· - 1) hm.depth, hm.callLimit⟩, rfl, rfl, rfl⟩

end Machine

/-! ## Machines before and after -/

namespace Machine

/-- What a run keeps of the machine `m`. A name may be declared in the current scope, so that older scopes are
    isolated up to there. -/
structure Balance (m m' : Machine) : Prop where
  place : m.SamePlace m'
  deepest : m'.deepest ≤ max m.deepest m.callLimit
  grows : m.scopes.count ≤ m'.scopes.count
  parents : ∀ id < m.scopes.count, m'.scopes.parent id = m.scopes.parent id
  isolated : ∀ base, base ≤ m.scopes.count → base ≤ m.env.current → m.scopes.Isolated base m'.scopes

namespace Balance

variable {m m' m'' : Machine}

/-- Only values were made and written. -/
theorem of_scopes (place : m.SamePlace m') (hdeepest : m'.deepest = m.deepest) (hscopes : m'.scopes = m.scopes) :
    m.Balance m' where
  place := place
  deepest := by rw [hdeepest]; exact Nat.le_max_left ..
  grows := Nat.le_of_eq (congrArg Scopes.count hscopes.symm)
  parents _ _ := by rw [hscopes]
  isolated _ _ _ := by rw [hscopes]; exact .of_binding fun _ _ _ => rfl

theorem trans (h : m.Balance m') (h' : m'.Balance m'') : m.Balance m'' where
  place := h.place.trans h'.place
  deepest := by
    have hdeepest := h.deepest
    have hdeepest' := h'.deepest
    rw [h.place.callLimit] at hdeepest'
    omega
  grows := Nat.le_trans h.grows h'.grows
  parents id hid := (h'.parents id (Nat.lt_of_lt_of_le hid h.grows)).trans (h.parents id hid)
  isolated base hcount hcurrent :=
    (h.isolated base hcount hcurrent).trans
      (h'.isolated base (Nat.le_trans hcount h.grows) (by rw [h.place.env]; exact hcurrent))

theorem defined {scope : Nat}
    (h : ∀ base, base ≤ m.env.current → m.scopes.Isolated base (m.scopes.define scope name v)) :
    m.Balance (m.defined scope name v) where
  place := ⟨rfl, rfl, rfl, rfl⟩
  deepest := Nat.le_max_left ..
  grows := Nat.le_of_eq (Scopes.count_define ..).symm
  parents _ _ := Scopes.parent_define ..
  isolated base _ hcurrent := h base hcurrent

/-- Whatever is declared in a new scope leaves all older ones alone. -/
theorem isolated_of_alloc (h : m'.Balance m'') (hscopes : m'.scopes = (m.scopes.alloc parent).2)
    (hcurrent : m'.env.current = m.scopes.count) {base : Nat} (hbase : base ≤ m.scopes.count) :
    m.scopes.Isolated base m''.scopes := by
  have hcount : m'.scopes.count = m.scopes.count + 1 := by rw [hscopes, Scopes.count_alloc]
  have halloc : m.scopes.Isolated base m'.scopes := .of_binding fun id _ name => by rw [hscopes, Scopes.binding_alloc]
  exact halloc.trans (h.isolated base (by omega) (by omega))

theorem parents_of_alloc (h : m'.Balance m'') (hscopes : m'.scopes = (m.scopes.alloc parent).2)
    {id : Nat} (hid : id < m.scopes.count) : m''.scopes.parent id = m.scopes.parent id := by
  have hcount : m'.scopes.count = m.scopes.count + 1 := by rw [hscopes, Scopes.count_alloc]
  rw [h.parents id (by omega), hscopes, Scopes.parent_alloc, if_neg (by omega)]

theorem grows_of_alloc (h : m'.Balance m'')
    (hscopes : m'.scopes = (m.scopes.alloc parent).2) : m.scopes.count ≤ m''.scopes.count := by
  have hcount : m'.scopes.count = m.scopes.count + 1 := by rw [hscopes, Scopes.count_alloc]
  have hgrows := h.grows
  omega

/-- A scope is entered and left. -/
theorem left (h : m.entered.Balance m') : m.Balance m'.left where
  place := (leadsBack_left m m' h.place).1
  deepest := h.deepest
  grows := h.grows_of_alloc rfl
  parents _ hid := h.parents_of_alloc rfl hid
  isolated _ hcount _ := h.isolated_of_alloc rfl rfl hcount

/-- A call is opened, where one may be, and closed. -/
theorem returned {captured : Nat} {this : Value} (hroom : m.depth < m.callLimit)
    (h : (m.called captured this).Balance m') : m.Balance (m'.returned m) where
  place := (leadsBack_returned m captured this m' h.place).1
  deepest := by
    have hdeepest : m'.deepest ≤ max (max m.deepest (m.depth + 1)) m.callLimit := h.deepest
    show m'.deepest ≤ _
    omega
  grows := h.grows_of_alloc rfl
  parents _ hid := h.parents_of_alloc rfl hid
  isolated _ hcount _ := h.isolated_of_alloc rfl rfl hcount

end Balance

/-- What a run keeps that declares, where the machine stands, no names but `D`. -/
structure Declares (D : String → Prop) (m m' : Machine) : Prop extends Balance m m' where
  others : ∀ id < m.scopes.count, ∀ name, ¬ D name → Lasts (m.scopes.binding id name) (m'.scopes.binding id name)

/-- Any names. -/
def anyName : String → Prop := fun _ => True

namespace Declares

variable {D D' : String → Prop} {m m' m'' : Machine}

theorem of_scopes (place : m.SamePlace m') (hdeepest : m'.deepest = m.deepest) (hscopes : m'.scopes = m.scopes) :
    m.Declares D m' where
  toBalance := .of_scopes place hdeepest hscopes
  others _ _ _ _ := by rw [hscopes]; exact .refl _

theorem refl (m : Machine) : m.Declares D m := .of_scopes (.refl m) rfl rfl

theorem trans (h : m.Declares D m') (h' : m'.Declares D m'') : m.Declares D m'' where
  toBalance := h.toBalance.trans h'.toBalance
  others id hid name hname :=
    (h.others id hid name hname).trans (h'.others id (Nat.lt_of_lt_of_le hid h.grows) name hname)

/-- Nothing is declared in the scopes that were there. -/
theorem of_isolated (h : m.Balance m') (hisolated : m.scopes.Isolated m.scopes.count m'.scopes) : m.Declares D m' :=
  ⟨h, fun _ hid name _ => hisolated.lasts hid name⟩

theorem define (hname : D name) (m : Machine) (v : Variable) :
    m.Declares D (m.defined m.env.current name v) where
  toBalance := .defined fun _ hbase => .define hbase m.scopes name v
  others id _ other hother := by
    have hne : ¬(m.env.current = id ∧ id < m.scopes.count ∧ other = name) :=
      fun hsame => hother (hsame.2.2 ▸ hname)
    show Lasts _ ((m.scopes.define m.env.current name v).binding id other)
    rw [Scopes.binding_define, if_neg hne]
    exact .refl _

theorem assign {owner : Nat} (h : m.scopes.binding owner name = some v)
    (hmutable : v.isMutable = true) (value : Value) : m.Declares D (m.defined owner name { v with value }) :=
  .of_isolated (.defined fun base _ => .assign h hmutable base value) (.assign h hmutable _ value)

/-- A scope is entered and left. -/
theorem left (h : m.entered.Declares D' m') : m.Declares D m'.left :=
  .of_isolated h.toBalance.left (h.toBalance.isolated_of_alloc rfl rfl (Nat.le_refl _))

/-- A call is opened, where one may be, and closed. -/
theorem returned {captured : Nat} {this : Value} (hroom : m.depth < m.callLimit)
    (h : (m.called captured this).Declares D' m') : m.Declares D (m'.returned m) :=
  .of_isolated (h.toBalance.returned hroom) (h.toBalance.isolated_of_alloc rfl rfl (Nat.le_refl _))

end Declares

end Machine

/-! ## Steps -/

namespace Eval

open Machine

/-- A step that leaves every machine balanced, whether it ends with a value or not, and that declares no names
    but `D` where it stands. -/
def Balanced {α : Type} (D : String → Prop) (act : Eval α) : Prop := ∀ m : Machine, m.Declares D (act.run.run m).2

namespace Balanced

variable {α β : Type} {D D' : String → Prop}

theorem of_run {act : Eval α} {next : Machine → Machine} (hrun : ∀ m, (act.run.run m).2 = next m)
    (hplace : ∀ m : Machine, m.SamePlace (next m)) (hdeepest : ∀ m, (next m).deepest = m.deepest)
    (hscopes : ∀ m, (next m).scopes = m.scopes) : Balanced D act := fun m => by
  rw [hrun]
  exact .of_scopes (hplace m) (hdeepest m) (hscopes m)

/-- A step that changes nothing but values. -/
theorem unmoved {act : Eval α} (hrun : ∀ m, (act.run.run m).2 = m) : Balanced D act :=
  of_run hrun .refl (fun _ => rfl) fun _ => rfl

theorem pure (a : α) : Balanced D (Pure.pure a : Eval α) := unmoved fun _ => rfl

theorem raise (e : EvalError) : Balanced D (Eval.raise e : Eval α) := unmoved fun _ => rfl

theorem exhausted : Balanced D (Eval.exhausted : Eval α) := unmoved fun _ => rfl

theorem get : Balanced D (MonadState.get : Eval Machine) := unmoved fun _ => rfl

theorem lift (r : Except EvalError α) : Balanced D (Eval.lift r) := unmoved fun m => by rw [run_lift]

theorem bind {act : Eval α} {k : α → Eval β} (h : Balanced D act) (hk : ∀ a, Balanced D (k a)) :
    Balanced D (act >>= k) := by
  intro m
  have hm := h m
  rw [run_bind]
  generalize act.run.run m = r at hm ⊢
  rcases r with ⟨_ | a, m'⟩
  · exact hm
  · exact hm.trans (hk a m')

theorem withScope {act : Eval α} (h : Balanced D' act) : Balanced D (Eval.withScope act) := fun m => (h m.entered).left

/-- The limit is looked at before the call is opened. -/
theorem withFrame {act : Eval α} (h : Balanced D' act) (c : Closure) (this : Value) (span : Span) :
    Balanced D (checkCall c span >>= fun _ => Eval.withFrame c.scope this act) := by
  intro m
  by_cases hroom : m.callLimit ≤ m.depth
  · have hrun : (checkCall c span).run.run m = (.error (.raised (.callDepth span)), m) := by
      rw [checkCall, run_bind_ok (run_get m), if_pos hroom, run_raise]
    rw [run_bind_error hrun]
    exact .refl m
  · cases hrun : (checkCall c span).run.run m with
    | mk result m' =>
      have hsame : m' = m := by
        rw [checkCall, run_bind_ok (run_get m), if_neg hroom] at hrun
        split at hrun <;> cases hrun <;> rfl
      subst hsame
      cases result with
      | error e =>
        rw [run_bind_error hrun]
        exact .refl m'
      | ok =>
        rw [run_bind_ok hrun, run_withFrame]
        exact (h (m'.called c.scope this)).returned (Nat.lt_of_not_le hroom)

theorem attempt {act : Eval α} (h : Balanced D act) : Balanced D (Eval.attempt act) := by
  intro m
  have hm := h m
  rw [run_attempt]
  generalize act.run.run m = r at hm ⊢
  rcases r with ⟨(_ | _) | _, m'⟩ <;> exact hm

end Balanced

/-! ## Fewer and more steps -/

/-- Wherever the first ends before its steps are used up, the second ends in the same way. -/
def Extends {α : Type} (f g : Eval α) : Prop :=
  ∀ m, (f.run.run m).1 = .error .exhausted ∨ g.run.run m = f.run.run m

namespace Extends

variable {α β : Type}

theorem refl (f : Eval α) : Extends f f := fun _ => .inr rfl

theorem bind {f g : Eval α} {k l : α → Eval β} (h : Extends f g)
    (hk : ∀ a, Extends (k a) (l a)) : Extends (f >>= k) (g >>= l) := by
  intro m
  rw [run_bind, run_bind]
  rcases h m with he | he
  · left
    rcases hf : f.run.run m with ⟨r, m'⟩
    rw [hf] at he
    cases he
    rfl
  · rw [he]
    rcases f.run.run m with ⟨_ | a, m'⟩
    · exact .inr rfl
    · exact hk a m'

theorem withScope {f g : Eval α} (h : Extends f g) :
    Extends (Eval.withScope f) (Eval.withScope g) := by
  intro m
  rw [run_withScope, run_withScope]
  rcases h m.entered with he | he
  · exact .inl he
  · exact .inr (by rw [he])

theorem withFrame {f g : Eval α} (captured : Nat) (this : Value) (h : Extends f g) :
    Extends (Eval.withFrame captured this f) (Eval.withFrame captured this g) := by
  intro m
  rw [run_withFrame, run_withFrame]
  rcases h (m.called captured this) with he | he
  · exact .inl he
  · exact .inr (by rw [he])

theorem attempt {f g : Eval α} (h : Extends f g) : Extends (Eval.attempt f) (Eval.attempt g) := by
  intro m
  rw [run_attempt, run_attempt]
  rcases h m with he | he
  · left
    rcases hf : f.run.run m with ⟨r, m'⟩
    rw [hf] at he
    cases he
    rfl
  · exact .inr (by rw [he])

end Extends

/-- The first leaves every machine balanced, and the second goes on where it ran out of steps. -/
structure Steady {α : Type} (D : String → Prop) (f g : Eval α) : Prop where
  balanced : Balanced D f
  extended : Extends f g

namespace Steady

variable {α β : Type} {D D' : String → Prop} {f g : Eval α}

theorem refl (h : Balanced D f) : Steady D f f := ⟨h, .refl f⟩

theorem exhausted (g : Eval α) : Steady D Eval.exhausted g := ⟨.exhausted, fun _ => .inl rfl⟩

theorem bind {k l : α → Eval β} (h : Steady D f g) (hk : ∀ a, Steady D (k a) (l a)) :
    Steady D (f >>= k) (g >>= l) :=
  ⟨.bind h.balanced fun a => (hk a).balanced, .bind h.extended fun a => (hk a).extended⟩

/-- What follows takes no steps. -/
theorem andThen {k : α → Eval β} (h : Steady D f g) (hk : ∀ a, Balanced D (k a)) :
    Steady D (f >>= k) (g >>= k) := h.bind fun a => .refl (hk a)

/-- What comes before takes no steps. -/
theorem after {f : Eval β} {k l : β → Eval α} (h : Balanced D f) (hk : ∀ b, Steady D (k b) (l b)) :
    Steady D (f >>= k) (f >>= l) := (refl h).bind hk

theorem withScope (h : Steady D' f g) : Steady D (Eval.withScope f) (Eval.withScope g) :=
  ⟨.withScope h.balanced, .withScope h.extended⟩

theorem withFrame (h : Steady D' f g) (c : Closure) (this : Value) (span : Span) :
    Steady D (checkCall c span >>= fun _ => Eval.withFrame c.scope this f)
      (checkCall c span >>= fun _ => Eval.withFrame c.scope this g) :=
  ⟨.withFrame h.balanced c this span, .bind (.refl _) fun _ => .withFrame _ _ h.extended⟩

theorem attempt (h : Steady D f g) : Steady D (Eval.attempt f) (Eval.attempt g) :=
  ⟨.attempt h.balanced, .attempt h.extended⟩

theorem mapM {f g : α → Eval β} (h : ∀ a, Steady D (f a) (g a)) (as : List α) :
    Steady D (as.mapM f) (as.mapM g) := by
  induction as with
  | nil => exact refl (.pure _)
  | cons a as ih =>
    rw [List.mapM_cons, List.mapM_cons]
    exact bind (h a) fun _ => andThen ih fun _ => .pure _

theorem foldlM {f g : β → α → Eval β} (h : ∀ b a, Steady D (f b a) (g b a)) (as : List α) :
    ∀ b, Steady D (as.foldlM f b) (as.foldlM g b) := by
  induction as with
  | nil => exact fun b => refl (.pure b)
  | cons a as ih =>
    intro b
    rw [List.foldlM_cons, List.foldlM_cons]
    exact bind (h b a) ih

theorem forM {f g : α → Eval PUnit} {as : List α} (h : ∀ a ∈ as, Steady D (f a) (g a)) :
    Steady D (as.forM f) (as.forM g) := by
  induction as with
  | nil => exact refl (.pure _)
  | cons a as ih =>
    obtain ⟨hhead, htail⟩ := List.forall_mem_cons.mp h
    exact bind hhead fun _ => ih htail

theorem sequence {f g : Stmt → Eval Flow} (h : ∀ s, Steady D (f s) (g s)) (ss : List Stmt) :
    Steady D (Eval.sequence f ss) (Eval.sequence g ss) := by
  induction ss with
  | nil => exact refl (.pure _)
  | cons s ss ih =>
    rw [Eval.sequence, Eval.sequence]
    refine bind (h s) fun flow => ?_
    cases flow with
    | normal => exact ih
    | ret _ | breakTo _ | continueTo _ => exact refl (.pure _)

end Steady

end Eval

end MatchChain
