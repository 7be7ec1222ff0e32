import MatchChain.Proofs.Syntax.Formula
import MatchChain.Proofs.Syntax.Total

/-!
# What reading guarantees

All that was read is spelled as it should be, part by part. A formula whose parts are is `Written`: its names are
spelled like names, it assigns to what can be assigned to, and only its last parameter takes the rest of the
arguments.
-/

set_option autoImplicit false

namespace MatchChain

namespace Written

mutual

/-- The shape of a formula and the spelling of its parts are all that reading guarantees of it. -/
theorem expr_of_spelled : ∀ {spread : Bool} {e : Expr}, Formula.expr spread e = true → (Part.expr e).All Part.Spelled →
    expr spread e
  | _, .ident .., _, h => h.here
  | _, .str .., _, _ | _, .bool .., _, _ | _, .null _, _, _ | _, .thisRef _, _, _ => trivial
  | _, .num .., hformula, _ | _, .bigint .., hformula, _ | _, .template .., hformula, _
  | _, .construct .., hformula, _ => nomatch hformula
  | _, .array _ _, hformula, h => elements_of_spelled hformula h.children
  | _, .object _ _, hformula, h => props_of_spelled hformula h.children
  | _, .func _ _, hformula, h => func_of_spelled hformula (List.forall_mem_singleton.mp h.children)
  | _, .unary _ _ operand, hformula, h =>
    expr_of_spelled (e := operand) hformula (List.forall_mem_singleton.mp h.children)
  | _, .binary _ _ _ _, hformula, h => by
    obtain ⟨hleft, hright⟩ := Bool.and_eq_true_iff.mp hformula
    obtain ⟨hleft', hrest⟩ := List.forall_mem_cons.mp h.children
    exact ⟨expr_of_spelled hleft hleft', expr_of_spelled hright (List.forall_mem_singleton.mp hrest)⟩
  | _, .conditional _ _ _ _, hformula, h => by
    obtain ⟨hothers, helse⟩ := Bool.and_eq_true_iff.mp hformula
    obtain ⟨hcond, hthen⟩ := Bool.and_eq_true_iff.mp hothers
    obtain ⟨hcond', hrest⟩ := List.forall_mem_cons.mp h.children
    obtain ⟨hthen', hrest⟩ := List.forall_mem_cons.mp hrest
    exact ⟨expr_of_spelled hcond hcond', expr_of_spelled hthen hthen',
      expr_of_spelled helse (List.forall_mem_singleton.mp hrest)⟩
  | _, .assign _ _ _ _, hformula, h => by
    obtain ⟨htarget, hvalue⟩ := Bool.and_eq_true_iff.mp hformula
    obtain ⟨htarget', hrest⟩ := List.forall_mem_cons.mp h.children
    exact ⟨h.here, expr_of_spelled htarget htarget', expr_of_spelled hvalue (List.forall_mem_singleton.mp hrest)⟩
  | _, .member _ _ _ _, hformula, h =>
    ⟨expr_of_spelled hformula (List.forall_mem_singleton.mp h.children), h.here⟩
  | _, .index _ _ _ _, hformula, h => by
    obtain ⟨hobject, hkey⟩ := Bool.and_eq_true_iff.mp hformula
    obtain ⟨hobject', hrest⟩ := List.forall_mem_cons.mp h.children
    exact ⟨expr_of_spelled hobject hobject', expr_of_spelled hkey (List.forall_mem_singleton.mp hrest)⟩
  | _, .call _ _ _ _, hformula, h => by
    obtain ⟨hcallee, hargs⟩ := Bool.and_eq_true_iff.mp hformula
    obtain ⟨hcallee', hargs'⟩ := List.forall_mem_cons.mp h.children
    exact ⟨expr_of_spelled hcallee hcallee', elements_of_spelled hargs hargs'⟩
  | _, .spread _ _, hformula, h => by
    obtain ⟨hspread, hoperand⟩ := Bool.and_eq_true_iff.mp hformula
    exact ⟨hspread, expr_of_spelled hoperand (List.forall_mem_singleton.mp h.children)⟩

theorem elements_of_spelled : ∀ {es : List Expr}, Formula.elements es = true →
    (∀ m ∈ es.map Part.expr, m.All Part.Spelled) → elements es
  | [], _, _ => trivial
  | _ :: _, hformula, h => by
    obtain ⟨hhead, htail⟩ := Bool.and_eq_true_iff.mp hformula
    obtain ⟨hhead', htail'⟩ := List.forall_mem_cons.mp h
    exact ⟨expr_of_spelled hhead hhead', elements_of_spelled htail htail'⟩

theorem props_of_spelled : ∀ {ps : List Property}, Formula.props ps = true →
    (∀ m ∈ ps.map Part.property, m.All Part.Spelled) → props ps
  | [], _, _ => trivial
  | _ :: _, hformula, h => by
    obtain ⟨hhead, htail⟩ := Bool.and_eq_true_iff.mp hformula
    obtain ⟨hhead', htail'⟩ := List.forall_mem_cons.mp h
    exact ⟨prop_of_spelled hhead hhead', props_of_spelled htail htail'⟩

theorem prop_of_spelled : ∀ {p : Property}, Formula.prop p = true → (Part.property p).All Part.Spelled → prop p
  | .init _ _ _ _, hformula, h => by
    obtain ⟨hkey, hvalue⟩ := Bool.and_eq_true_iff.mp hformula
    obtain ⟨hkey', hvalue'⟩ := List.forall_mem_append.mp h.children
    obtain ⟨hword, halone⟩ := h.here
    exact ⟨propKey_of_spelled hkey hword hkey', expr_of_spelled hvalue (List.forall_mem_singleton.mp hvalue'), halone⟩
  | .spread _ _, hformula, h => expr_of_spelled hformula (List.forall_mem_singleton.mp h.children)

theorem propKey_of_spelled : ∀ {key : PropKey}, Formula.propKey key = true → (∀ name, key = .ident name → IsWord name) →
    (∀ m ∈ Part.ofKey key, m.All Part.Spelled) → propKey key
  | .ident name, _, hword, _ => hword name rfl
  | .str _, _, _, _ => trivial
  | .num _, hformula, _, _ => nomatch hformula
  | .computed _, hformula, _, h => expr_of_spelled hformula (List.forall_mem_singleton.mp h)

theorem func_of_spelled : ∀ {fn : Func}, Formula.func fn = true → (Part.func fn).All Part.Spelled → func fn
  | ⟨_, _, _, _, _, _, _⟩, hformula, h => by
    obtain ⟨hhead, hbody⟩ := Bool.and_eq_true_iff.mp hformula
    obtain ⟨hkind, hparams⟩ := Bool.and_eq_true_iff.mp hhead
    obtain ⟨hparams', hbody'⟩ := List.forall_mem_append.mp h.children
    obtain ⟨hname, hgenerator, hrest⟩ := h.here.2 (eq_of_beq hkind)
    exact ⟨eq_of_beq hkind, hname, hgenerator, params_of_spelled hparams hrest hparams',
      funcBody_of_spelled hbody hbody'⟩

theorem params_of_spelled : ∀ {ps : List Param}, Formula.params ps = true → (∀ p ∈ ps.dropLast, p.rest = false) →
    (∀ m ∈ ps.map Part.param, m.All Part.Spelled) → params ps
  | [], _, _, _ => trivial
  | p :: ps, hformula, hrest, h => by
    obtain ⟨hhead, htail⟩ := Bool.and_eq_true_iff.mp hformula
    obtain ⟨hhead', htail'⟩ := List.forall_mem_cons.mp h
    by_cases hlast : ps = []
    · exact ⟨param_of_spelled hhead hhead', fun _ => hlast, params_of_spelled htail (by simp [hlast]) htail'⟩
    · rw [List.dropLast_cons_of_ne_nil hlast, List.forall_mem_cons] at hrest
      refine ⟨param_of_spelled hhead hhead', fun htrue => ?_, params_of_spelled htail hrest.2 htail'⟩
      rw [hrest.1] at htrue
      cases htrue

theorem param_of_spelled : ∀ {p : Param}, Formula.param p = true → (Part.param p).All Part.Spelled → param p
  | ⟨_, .ident nameSpan name, _, _⟩, hformula, h => by
    obtain ⟨htarget, hdefault⟩ := List.forall_mem_cons.mp h.children
    exact ⟨⟨nameSpan, name, rfl, htarget.here⟩, default?_of_spelled hformula hdefault, h.here⟩
  | ⟨_, .array .., _, _⟩, hformula, _ | ⟨_, .object .., _, _⟩, hformula, _ => nomatch hformula

theorem default?_of_spelled : ∀ {value : Option Expr}, Formula.default? value = true →
    (∀ m ∈ Part.ofValue value, m.All Part.Spelled) → default? value
  | none, _, _ => trivial
  | some _, hformula, h => expr_of_spelled hformula (List.forall_mem_singleton.mp h)

theorem funcBody_of_spelled : ∀ {body : FuncBody}, Formula.funcBody body = true →
    (∀ m ∈ Part.ofBody body, m.All Part.Spelled) → funcBody body
  | .expr _, hformula, h => expr_of_spelled hformula (List.forall_mem_singleton.mp h)
  | .block _, hformula, _ => nomatch hformula

end

end Written

/-- A formula that was read is written. -/
theorem Expr.written_of_parse {source : String} {e : Expr} (h : Expr.parse source = .ok e)
    (hformula : e.isFormula = true) : e.Written :=
  Written.expr_of_spelled hformula ((Expr.all_good_of_parse (L := .blind) trivial h).imp fun _ hgood => hgood.spelled)

end MatchChain
