import MatchChain.Proofs.Syntax.Nodes
import MatchChain.Proofs.Syntax.Produced
import MatchChain.Proofs.Syntax.Spelled

/-!
# Writing a formula and reading it back

The text of a formula spells its tokens, and the tokens are read as the formula. So every formula that
was read is read back from its text, up to spans: each parenthesis that the structure needs is written,
whatever operators are nested in whatever way.
-/

set_option autoImplicit false

namespace MatchChain

/-- An element that is not spread is a formula by itself. -/
theorem Written.expr_of_ne_spread {spread : Bool} {e : Expr} (h : Written.expr spread e)
    (hne : ∀ span operand, e ≠ .spread span operand) : Written.expr false e := by
  cases e with
  | spread span operand => exact absurd rfl (hne span operand)
  | _ =>
    unfold Written.expr at h ⊢
    exact h

namespace Parser

/-! ## The first token of an arrow's body -/

theorem head?_append_ne {ks ls : List TokenKind} {k : TokenKind} (hks : ks.head? ≠ some k)
    (hls : ls.head? ≠ some k) : (ks ++ ls).head? ≠ some k := by
  cases ks with
  | nil => exact hls
  | cons => exact hks

theorem head?_wrap_ne {ks : List TokenKind} {needed : Bool}
    (h : needed = false → ks.head? ≠ some (.punct .lbrace)) :
    (Tokens.wrap needed ks).head? ≠ some (.punct .lbrace) := by
  cases needed with
  | false => exact h rfl
  | true => exact nofun

/-- Only what looks like a block starts with a brace. -/
theorem head?_ne_lbrace {spread : Bool} : ∀ {e : Expr}, Written.expr spread e → e.startsLikeBlock = false →
    (Tokens.expr e).head? ≠ some (.punct .lbrace)
  | .ident .., _, _ | .str .., _, _ | .bool .., _, _ | .null _, _, _ | .thisRef _, _, _ | .array .., _, _
  | .spread .., _, _ => nofun
  | .unary _ op _, _, _ => by
    cases op <;> nofun
  | .func _ ⟨_, _, _, _, _, isAsync, _⟩, _, _ => by
    rw [Tokens.expr, Tokens.func]
    cases isAsync <;> nofun
  | .binary _ op left right, h, hblock => by
    refine head?_append_ne (head?_wrap_ne fun _ => head?_ne_lbrace h.1 hblock) ?_
    cases op <;> nofun
  | .conditional _ cond thenExpr elseExpr, h, hblock => by
    exact head?_append_ne (head?_wrap_ne fun _ => head?_ne_lbrace h.1 hblock) nofun
  | .assign _ op target value, h, hblock => by
    refine head?_append_ne (head?_wrap_ne fun _ => head?_ne_lbrace h.2.1 hblock) ?_
    cases op <;> nofun
  | .member _ object property optional, h, hblock => by
    refine head?_append_ne (head?_wrap_ne fun _ => head?_ne_lbrace h.1 hblock) ?_
    cases optional <;> nofun
  | .index _ object key optional, h, hblock => by
    refine head?_append_ne (head?_wrap_ne fun _ => head?_ne_lbrace h.1 hblock) ?_
    cases optional <;> nofun
  | .call _ callee args optional, h, hblock => by
    refine head?_append_ne (head?_wrap_ne fun hwrap => head?_ne_lbrace h.1 ?_) ?_
    · rw [Bool.or_eq_false_iff] at hwrap
      rwa [Expr.startsLikeBlock, hwrap.1] at hblock
    · cases optional <;> nofun
  | .object .., _, hblock => by cases hblock

/-! ## Formulas -/

section

variable {t m : Nat} {ks : List TokenKind} {e : Expr}

/-- Parentheses make any expression fit, and where there are none it fits by itself. -/
theorem Reading.wrap (h : Reading t ks e) {needed : Bool} (hm : m ≤ Tightness.primary)
    (hneeded : needed = false → m ≤ t) : ∃ u, m ≤ u ∧ Reading u (Tokens.wrap needed ks) e := by
  cases needed with
  | false => exact ⟨t, hneeded rfl, h⟩
  | true => exact ⟨Tightness.primary, hm, reading_enclosed _ h⟩

theorem Reading.place (h : Reading e.tightness ks e) (hm : m ≤ Tightness.primary) :
    ∃ u, m ≤ u ∧ Reading u (Tokens.place m e ks) e :=
  h.wrap hm fun hfits => Nat.not_lt.mp (of_decide_eq_false hfits)

/-- The same where there may be other reasons for parentheses. -/
theorem Reading.placeOr (h : Reading e.tightness ks e) (hm : m ≤ Tightness.primary) (other : Bool) :
    ∃ u, m ≤ u ∧ Reading u (Tokens.wrap (e.tightness < m || other) ks) e :=
  h.wrap hm fun hfits => Nat.not_lt.mp (of_decide_eq_false (Bool.or_eq_false_iff.mp hfits).1)

end

mutual

theorem reading_expr : ∀ {e : Expr}, Written.expr false e → Reading e.tightness (Tokens.expr e) e
  | .ident span name, _ => reading_ident _ span name
  | .str span text, _ => reading_literal (e := (.str · text)) _ rfl span
  | .bool span value, _ => by
    cases value with
    | false => exact reading_literal (e := (.bool · false)) _ rfl span
    | true => exact reading_literal (e := (.bool · true)) _ rfl span
  | .null span, _ => reading_literal (e := .null) _ rfl span
  | .thisRef span, _ => reading_literal (e := .thisRef) _ rfl span
  | .array span items, h => reading_array _ (reading_items h) span
  | .object span ps, h => reading_object _ (reading_props h) span
  | .func span fn, h => reading_func span h
  | .unary span op operand, h => by
    obtain ⟨u, hu, hoperand⟩ := (reading_expr (e := operand) h).place (m := Tightness.unary) (by decide)
    exact reading_unary op hoperand hu span
  | .binary span op left right, h => by
    rw [Tokens.expr, Bool.or_assoc]
    obtain ⟨u, hu, hleft⟩ := (reading_expr h.1).placeOr op.leftMin_le_primary _
    obtain ⟨v, hv, hright⟩ := (reading_expr h.2).placeOr op.rightMin_le_primary _
    exact reading_binary op hleft hright hu hv span
  | .conditional span cond thenExpr elseExpr, h => by
    rw [Tokens.expr, Tokens.place_assignment, Tokens.place_assignment]
    obtain ⟨u, hu, hcond⟩ := (reading_expr h.1).place (m := Tightness.conditional + 1) (by decide)
    exact reading_conditional hcond hu (reading_expr h.2.1) (reading_expr h.2.2) span
  | .assign span op target value, h => by
    rw [Tokens.expr, Tokens.place_assignment]
    obtain ⟨u, hu, htarget⟩ := (reading_expr h.2.1).place (m := Tightness.postfixed) (by decide)
    exact reading_assign op htarget hu h.1 (reading_expr h.2.2) span
  | .member span object property optional, h => by
    obtain ⟨u, hu, hobject⟩ := (reading_expr h.1).placeOr (m := Tightness.postfixed) (by decide) _
    exact reading_member _ hobject hu span property optional
  | .index span object key optional, h => by
    obtain ⟨u, hu, hobject⟩ := (reading_expr h.1).placeOr (m := Tightness.postfixed) (by decide) _
    exact reading_index _ hobject hu (reading_expr h.2) span optional
  | .call span callee args optional, h => by
    rw [Tokens.expr, Bool.or_comm callee.isFunc]
    obtain ⟨u, hu, hcallee⟩ := (reading_expr h.1).placeOr (m := Tightness.postfixed) (by decide) _
    exact reading_call _ hcallee hu (reading_items h.2) span optional

theorem reading_items : ∀ {es : List Expr}, Written.elements es →
    List.Forall₂ (ItemReading element Like) (Tokens.items es) es
  | [], _ => .nil
  | e :: es, h => by
    rw [Tokens.items, Tokens.place_assignment]
    refine .cons ?_ (reading_items h.2)
    replace h := h.1
    cases e with
    | spread span operand =>
      rw [Tokens.expr, Tokens.place_assignment]
      exact (reading_expr h.2).spread span
    | _ => exact (reading_expr (Written.expr_of_ne_spread h nofun)).element

theorem reading_props : ∀ {ps : List Property}, Written.props ps →
    List.Forall₂ (ItemReading property LikeProp) (Tokens.props ps) ps
  | [], _ => .nil
  | .init span key value shorthand :: ps, h => by
    rw [Written.props, Written.prop] at h
    rw [Tokens.props, Tokens.prop, Tokens.place_assignment]
    obtain ⟨⟨hkey, hvalue, halone⟩, hps⟩ := h
    refine .cons ?_ (reading_props hps)
    cases shorthand with
    | false => exact itemReading_init (reading_propKey hkey) (reading_expr hvalue) span
    | true =>
      obtain ⟨span', name, rfl, rfl⟩ := halone rfl
      have hshort : Print.isShorthand true (.ident name) (Expr.ident span' name).identName? = true := by
        simp [Print.isShorthand, Expr.identName?]
      rw [if_pos hshort, List.nil_append, Tokens.expr]
      exact itemReading_alone span span' name
  | .spread span value :: ps, h => by
    rw [Written.props, Written.prop] at h
    rw [Tokens.props, Tokens.prop, Tokens.place_assignment]
    exact .cons (itemReading_spread (reading_expr h.1) span) (reading_props h.2)

theorem reading_func (span : Span) : ∀ {fn : Func}, Written.func fn →
    Reading (Expr.func span fn).tightness (Tokens.func fn) (.func span fn)
  | ⟨span', kind, name, ps, .expr e, isAsync, isGenerator⟩, h => by
    rw [Written.func, Written.funcBody] at h
    obtain ⟨rfl, rfl, rfl, hparams, hbody⟩ := h
    have hwrapped : ∃ u, Tightness.assignment ≤ u ∧ Reading u (Tokens.wrap
        (e.startsLikeBlock || e.tightness < Tightness.assignment) (Tokens.expr e)) e :=
      (reading_expr hbody).wrap (by decide) fun _ => e.tightness_pos
    obtain ⟨u, -, hwrapped⟩ := hwrapped
    rw [Tokens.func, Tokens.arrowBody]
    refine reading_arrow (reading_params hparams) hwrapped (head?_wrap_ne fun hneeded => ?_) isAsync span span'
    rw [Bool.or_eq_false_iff] at hneeded
    exact head?_ne_lbrace hbody hneeded.1

theorem reading_propKey : ∀ {key : PropKey}, Written.propKey key → KeyReading (Tokens.propKey key) key
  | .ident name, _ => keyReading_ident name
  | .str text, _ => keyReading_str text
  | .computed e, h => by
    rw [Tokens.propKey, Tokens.place_assignment]
    exact keyReading_computed (reading_expr h)

theorem reading_default : ∀ {default : Option Expr}, Written.default? default →
    DefaultReading (Tokens.default? default) default
  | none, _ => by
    rw [Tokens.default?]
    exact defaultReading_none
  | some e, h => by
    rw [Written.default?] at h
    rw [Tokens.default?, Tokens.place_assignment]
    exact defaultReading_some (reading_expr h)

theorem reading_params : ∀ {ps : List Param}, Written.params ps → ParamsReading (Tokens.params ps) ps
  | [], _ => ⟨.nil, fun _ _ => .nil⟩
  | ⟨span, target, default, rest⟩ :: ps, h => by
    rw [Written.params, Written.param] at h
    obtain ⟨⟨⟨span', name, rfl, -⟩, hdefault, hnone⟩, hlast, hps⟩ := h
    rw [Tokens.params, Tokens.param]
    exact ParamsReading.cons (reading_default hdefault) (reading_params hps) span span' name
      fun hrest => ⟨hnone hrest, hlast hrest⟩

end

end Parser

/-- A formula is read back from its text. -/
theorem Expr.Written.parse_print {e : Expr} (h : e.Written) :
    ∃ e', Expr.parse e.print = .ok e' ∧ e'.bare = e.bare := by
  have hspelled : Spelled e.print (Tokens.expr e) := Print.spelled_expr 0 h
  obtain ⟨tokens, hlex, hkinds, hline⟩ := Token.lex_of_spells hspelled EndsWord.none
  have hahead : Cursor.Ahead { tokens } (Tokens.expr e ++ []) := by
    rw [List.append_nil]
    exact ⟨hkinds, hline⟩
  have hdepth : 3 * (Tokens.expr e).length ≤ depthFor e.print.length := by
    have hle := hspelled.length_le
    rw [String.length_toList] at hle
    unfold depthFor
    omega
  obtain ⟨e', c, hparse, hlike, hc⟩ := (Parser.reading_expr h).expr _ [] hdepth rfl _ hahead
  refine ⟨e', ?_, hlike⟩
  have hrun : (do
      let e ← Grammar.parse (depthFor e.print.length) .expr
      let _ ← Parser.expect .eof
      return e : Parser Expr) { tokens } = .ok (e', c.advance) := by
    have hend : c.kind = .eof := hc.kind_current
    rw [Parser.bind_ok hparse, Parser.bind_ok (Parser.expect_ok hend)]
    rfl
  rw [Expr.parse, parseWith, parseTo, hlex]
  show Prod.fst <$> _ = _
  rw [hrun]
  rfl

/-- What was read and is a formula is read again from its own text, up to spans. -/
theorem Expr.parse_print_of_parse {source : String} {e : Expr} (h : Expr.parse source = .ok e)
    (hformula : e.isFormula = true) : ∃ e', Expr.parse e.print = .ok e' ∧ e'.bare = e.bare :=
  (Expr.written_of_parse h hformula).parse_print

def mixedFormula : String :=
  "(a, ...rest) => ((a ?? b) || (-a) ** b) ? [...rest][c = a]?.in(...rest, \x7b a \x7d) : !b"

/-- Mixed operators, a negated base, spreads, an assignment and an optional link in an arrow function. -/
theorem Expr.parse_print_mixedFormula : ∃ e e',
    Expr.parse mixedFormula = .ok e ∧ Expr.parse e.print = .ok e' ∧ e'.bare = e.bare := by
  have hread : (Expr.parse mixedFormula).toOption.any Expr.isFormula = true := by decide +kernel
  cases h : Expr.parse mixedFormula with
  | error cause =>
    rw [h] at hread
    cases hread
  | ok e =>
    rw [h] at hread
    obtain ⟨e', hparse, hbare⟩ := Expr.parse_print_of_parse h hread
    exact ⟨e, e', rfl, hparse, hbare⟩

end MatchChain
