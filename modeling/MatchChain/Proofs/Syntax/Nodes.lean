import MatchChain.Proofs.Syntax.Reading

/-!
# Every kind of formula is read back

One lemma for each kind of node: if the tokens of the parts are read as the parts, the tokens of the node
are read as the node.
-/

set_option autoImplicit false

namespace MatchChain.Parser

variable {kss : List (List TokenKind)} {ps : List Param} {kd : List TokenKind}

/-! ## Links -/

section

variable {t : Nat} {ks ls rest : List TokenKind} {e : Expr} {c : Cursor}

/-- An operand with one more link. -/
theorem Reading.linked (h : Reading t ks e) (ht : Tightness.postfixed ≤ t) (u : Nat) {k : TokenKind}
    {e' : Expr} (hk : k ≠ .keyword .«function») (hbalanced : TokenKind.Balanced (k :: ls))
    (hafter : ∀ rest, AfterOperand rest → AfterOperand (k :: ls ++ rest))
    (hlink : ∀ depth start rest y (c : Cursor), 3 * (k :: ls).length ≤ depth → Like e y →
      c.Ahead (k :: ls ++ rest) →
      Takes (link (Grammar.parse depth) start y) c rest fun r => ∃ z, r = some z ∧ Like e' z) :
    Reading u (ks ++ k :: ls) e' := by
  have hnoArrow := h.noArrow (Nat.lt_of_lt_of_le (by decide) ht)
  have hpostfixed : ReadsPostfixed (ks ++ k :: ls) e' := by
    intro depth start rest hdepth _
    have hpos := h.length_pos
    rw [List.length_append] at hdepth
    refine .extend (h.postfixed ht depth start (k :: ls ++ rest) (by omega) hk) (List.cons_ne_nil k ls) ?_
    exact fun y c hy hc => hlink depth start rest y c (by omega) hy hc
  have hbalanced' := h.balanced.append hbalanced
  obtain ⟨k', ls', rfl, hstart, hop⟩ := h.head
  exact .of_postfixed u ⟨k', _, rfl, hstart, hop ht⟩ hbalanced' (hnoArrow.append hafter) hpostfixed

theorem wordKind_cases (w : String) :
    (∃ k : Keyword, Lexeme.wordKind w = .keyword k ∧ k.text = w) ∨ Lexeme.wordKind w = .ident w := by
  rw [Lexeme.wordKind]
  cases hkeyword : Keyword.ofText? w with
  | none => exact .inr rfl
  | some k => exact .inl ⟨k, rfl, by simpa using List.find?_some hkeyword⟩

theorem balanced_word (w : String) : TokenKind.Balanced [Lexeme.wordKind w] := by
  rcases wordKind_cases w with ⟨k, hk, -⟩ | hk <;> rw [hk] <;> exact .cons (by simp) rfl rfl .nil

theorem takes_propertyName {w : String} (hc : c.Ahead (Lexeme.wordKind w :: rest)) :
    Takes propertyName c rest (· = w) := by
  rw [propertyName]
  refine .kind ?_
  rcases wordKind_cases w with ⟨k, hk, htext⟩ | hk
  · rw [hk] at hc
    rw [hc.kind_cons]
    exact .advance (.pure (hc.advance (by simp)) htext)
  · rw [hk] at hc
    have hkind : c.current.kind = .ident w := hc.kind_cons
    rw [hc.kind_cons]
    have hname : Takes name c rest fun r => r.1 = w := by
      rw [name]
      refine .current ?_
      rw [hkind]
      exact .advance (.pure (hc.advance (by simp)) rfl)
    exact hname.bind fun r c' hr hc' => .pure hc' hr

/-- A link that is there. -/
theorem Takes.linked {p : Parser Expr} {Q : Expr → Prop} (h : Takes p c rest Q) :
    Takes (do return some (← p)) c rest fun r => ∃ z, r = some z ∧ Q z :=
  h.bind fun z _ hz hc => .pure hc ⟨z, rfl, hz⟩

theorem takes_member (start span : Span) {y : Expr} {property : String} (optional : Bool) (hy : Like e y)
    (hc : c.Ahead (Lexeme.wordKind property :: rest)) :
    Takes (member start y optional) c rest (Like (.member span e property optional)) := by
  refine (takes_propertyName hc).bind fun w c' hw hc' => .spanFrom (.pure hc' ?_)
  rw [hw]
  exact congrArg (Expr.member .none · property optional) hy

theorem reading_member (u : Nat) (h : Reading t ks e) (ht : Tightness.postfixed ≤ t) (span : Span)
    (property : String) (optional : Bool) :
    Reading u (ks ++ [.punct (if optional then .questionDot else .dot), Lexeme.wordKind property])
      (.member span e property optional) := by
  have hbalanced := balanced_word property
  cases optional with
  | false =>
    refine h.linked ht u (by rintro ⟨⟩) (.cons (by simp) rfl rfl hbalanced) (fun rest _ => .of_head (by rintro ⟨⟩) rfl) ?_
    intro depth start rest y c _ hy hc
    have hkind : c.current.kind = .punct .dot := hc.kind_cons
    rw [link]
    refine .current ?_
    rw [hkind]
    exact .advance (Takes.linked (takes_member start span false hy (hc.advance (by simp))))
  | true =>
    refine h.linked ht u (by rintro ⟨⟩) (.cons (by simp) rfl rfl hbalanced) (fun rest _ => .of_head (by rintro ⟨⟩) rfl) ?_
    intro depth start rest y c _ hy hc
    have hkind : c.current.kind = .punct .questionDot := hc.kind_cons
    have hrest : c.advance.Ahead (Lexeme.wordKind property :: rest) := hc.advance (by simp)
    have hmember := Takes.linked (takes_member start span true hy hrest)
    rw [link]
    refine .current ?_
    rw [hkind]
    refine .advance (.kind ?_)
    rw [hrest.kind_cons]
    rcases wordKind_cases property with ⟨k, hk, -⟩ | hk
    · rw [hk]
      exact hmember
    · rw [hk]
      exact hmember

theorem takes_index {tk : Nat} {kks : List TokenKind} {key y : Expr} {depth : Nat} (start span : Span)
    (optional : Bool) (hy : Like e y) (hkey : Reading tk kks key) (hdepth : 3 * kks.length ≤ depth)
    (hc : c.Ahead (Tokens.enclosed .lbracket .rbracket kks ++ rest)) :
    Takes (index (Grammar.parse depth) start y optional) c rest (Like (.index span e key optional)) := by
  rw [Tokens.enclosed, List.cons_append, List.append_assoc] at hc
  rw [index]
  refine .expect hc.kind_cons ?_
  refine (hkey.expr depth (.punct .rbracket :: rest) hdepth rfl _ (hc.advance (by simp))).bind
    fun key' c' hkey' hc' => ?_
  refine .expect hc'.kind_cons (.spanFrom (.pure (hc'.advance (by simp)) ?_))
  exact congrArg₂ (Expr.index .none · · optional) hy hkey'

theorem reading_index (u : Nat) {tk : Nat} {kks : List TokenKind} {key : Expr} (h : Reading t ks e)
    (ht : Tightness.postfixed ≤ t) (hkey : Reading tk kks key) (span : Span) (optional : Bool) :
    Reading u (ks ++ ((if optional then [.punct .questionDot] else [])
      ++ Tokens.enclosed .lbracket .rbracket kks)) (.index span e key optional) := by
  have hbalanced : TokenKind.Balanced (Tokens.enclosed .lbracket .rbracket kks) :=
    .enclosed rfl rfl rfl hkey.balanced
  cases optional with
  | false =>
    refine h.linked ht u (by rintro ⟨⟩) hbalanced (fun rest _ => .of_head (by rintro ⟨⟩) rfl) ?_
    intro depth start rest y c hdepth hy hc
    have hkind : c.current.kind = .punct .lbracket := hc.kind_cons
    rw [List.length_cons, List.length_append] at hdepth
    rw [link]
    refine .current ?_
    rw [hkind]
    exact Takes.linked (takes_index start span false hy hkey (by omega) hc)
  | true =>
    refine h.linked ht u (by rintro ⟨⟩) (.cons (by simp) rfl rfl hbalanced) (fun rest _ => .of_head (by rintro ⟨⟩) rfl) ?_
    intro depth start rest y c hdepth hy hc
    have hkind : c.current.kind = .punct .questionDot := hc.kind_cons
    have hrest : c.advance.Ahead (Tokens.enclosed .lbracket .rbracket kks ++ rest) := hc.advance (by simp)
    have hkind' : c.advance.kind = .punct .lbracket := hrest.kind_cons
    change 3 * ((Tokens.enclosed .lbracket .rbracket kks).length + 1) ≤ depth at hdepth
    rw [Tokens.length_enclosed] at hdepth
    rw [link]
    refine .current ?_
    rw [hkind]
    refine .advance (.kind ?_)
    rw [hkind']
    exact Takes.linked (takes_index start span true hy hkey (by omega) hrest)

theorem takes_call {es : List Expr} {y : Expr} {depth : Nat} (start span : Span)
    (optional : Bool) (hy : Like e y) (hargs : List.Forall₂ (ItemReading element Like) kss es)
    (hdepth : 3 * (Tokens.separated kss).length ≤ depth)
    (hc : c.Ahead (Tokens.enclosed .lparen .rparen (Tokens.separated kss) ++ rest)) :
    Takes (call (Grammar.parse depth) start y optional) c rest (Like (.call span e es optional)) := by
  rw [Tokens.enclosed, List.cons_append, List.append_assoc] at hc
  have hlist : Takes (args (Grammar.parse depth)) c rest
      fun as => List.Forall₂ (fun a x => Like x a) as es :=
    .expect hc.kind_cons
      (ItemReading.takes_commaList hargs rfl (by decide) hdepth (hc.advance (by simp)))
  refine hlist.bind fun as c' has hc' => .spanFrom (.pure hc' ?_)
  have hmap : as.map Bare.expr = es.map Bare.expr := map_eq_map_of_forall₂ has
  show Expr.call .none y.bare (Bare.exprs as) optional = Expr.call .none e.bare (Bare.exprs es) optional
  rw [hy, Bare.exprs_eq_map, Bare.exprs_eq_map, hmap]

theorem afterOperand_enclosed (hks : TokenKind.Balanced ks) (hrest : AfterOperand rest) :
    AfterOperand (Tokens.enclosed .lparen .rparen ks ++ rest) := by
  refine ⟨nofun, nofun, fun _ after hafter => ?_⟩
  rw [Tokens.enclosed, List.cons_append, List.append_assoc] at hafter
  obtain rfl : rest = after := Option.some.inj ((TokenKind.afterClose_enclosed hks rest).symm.trans hafter)
  exact hrest.not_arrow

theorem reading_call (u : Nat) {es : List Expr} (h : Reading t ks e)
    (ht : Tightness.postfixed ≤ t) (hargs : List.Forall₂ (ItemReading element Like) kss es) (span : Span)
    (optional : Bool) :
    Reading u (ks ++ ((if optional then [.punct .questionDot] else [])
      ++ Tokens.enclosed .lparen .rparen (Tokens.separated kss))) (.call span e es optional) := by
  have hseparated := ItemReading.balanced_separated hargs
  have hbalanced : TokenKind.Balanced (Tokens.enclosed .lparen .rparen (Tokens.separated kss)) :=
    .enclosed rfl rfl rfl hseparated
  cases optional with
  | false =>
    refine h.linked ht u (by rintro ⟨⟩) hbalanced (fun rest hrest => afterOperand_enclosed hseparated hrest) ?_
    intro depth start rest y c hdepth hy hc
    have hkind : c.current.kind = .punct .lparen := hc.kind_cons
    rw [List.length_cons, List.length_append] at hdepth
    rw [link]
    refine .current ?_
    rw [hkind]
    exact Takes.linked (takes_call start span false hy hargs (by omega) hc)
  | true =>
    refine h.linked ht u (by rintro ⟨⟩) (.cons (by simp) rfl rfl hbalanced) (fun rest _ => .of_head (by rintro ⟨⟩) rfl) ?_
    intro depth start rest y c hdepth hy hc
    have hkind : c.current.kind = .punct .questionDot := hc.kind_cons
    have hrest : c.advance.Ahead (Tokens.enclosed .lparen .rparen (Tokens.separated kss) ++ rest) :=
      hc.advance (by simp)
    have hkind' : c.advance.kind = .punct .lparen := hrest.kind_cons
    change 3 * ((Tokens.enclosed .lparen .rparen (Tokens.separated kss)).length + 1) ≤ depth at hdepth
    rw [Tokens.length_enclosed] at hdepth
    rw [link]
    refine .current ?_
    rw [hkind]
    refine .advance (.kind ?_)
    rw [hkind']
    exact Takes.linked (takes_call start span true hy hargs (by omega) hrest)

end

/-! ## Operators -/

section

variable {t tl tr : Nat} {ks kl kr rest : List TokenKind} {e l r : Expr} {c : Cursor}

theorem binaryOp?_token (op : BinaryOp) : binaryOp? op.token = some op := by cases op <;> rfl

theorem assignOp?_token (op : AssignOp) : assignOp? op.token = some op := by cases op <;> rfl

theorem reading_unary (op : UnaryOp) (h : Reading t ks e) (ht : Tightness.unary ≤ t) (span : Span) :
    Reading Tightness.unary (op.token :: ks) (.unary span op e) := by
  have hstart : starts op.token = true := by cases op <;> rfl
  have hbalanced : TokenKind.Balanced (op.token :: ks) := by
    cases op <;> exact .cons (by simp [UnaryOp.token]) rfl rfl h.balanced
  have harrow : NoArrow (op.token :: ks) := by cases op <;> exact .of_head rfl
  refine .of_unary ⟨_, _, rfl, hstart⟩ hbalanced harrow fun depth rest hdepth hends c hc => ?_
  rw [List.length_cons] at hdepth
  obtain ⟨depth, rfl⟩ := Nat.exists_eq_succ_of_ne_zero (by omega : depth ≠ 0)
  have hkind : c.current.kind = op.token := hc.kind_cons
  have hrest : c.advance.Ahead (ks ++ rest) := hc.advance (by cases op <;> simp [UnaryOp.token])
  have hoperand : Takes (do
      modify Cursor.advance
      let operand ← Grammar.parse depth .unary
      return .unary (← spanFrom c.current.span) op operand) c rest (Like (.unary span op e)) := by
    refine .advance ((h.unary ht depth rest (by omega) hends _ hrest).bind fun e' c' he' hc' => ?_)
    exact .spanFrom (.pure hc' (congrArg (Expr.unary .none op) he'))
  show Takes (Parser.unary (Grammar.parse depth)) c rest _
  rw [Parser.unary]
  refine .current ?_
  rw [hkind]
  cases op <;> exact hoperand

theorem balanced_binary (op : BinaryOp) (h : TokenKind.Balanced ks) : TokenKind.Balanced (op.token :: ks) := by
  cases op <;> exact .cons (by simp [BinaryOp.token]) rfl rfl h

theorem afterOperand_binary (op : BinaryOp) : AfterOperand (op.token :: rest) := by
  cases op <;> exact .of_head (by simp [BinaryOp.token]) rfl

/-- The right operand is read by a loop of its own, which stops before operators that bind too loosely. -/
theorem takes_binaryLink (op : BinaryOp) {depth least : Nat} {start span : Span} {y : Expr} (hy : Like l y)
    (hr : Reading tr kr r) (htr : op.rightMin ≤ tr) (hdepth : 3 * kr.length ≤ depth + 1)
    (hleast : least ≤ op.precedence) (hends : endsOperand (rest.headD .eof) = true)
    (hnext : ∀ next, binaryOp? (rest.headD .eof) = some next → next.leftMin ≤ op.precedence)
    (hc : c.Ahead (op.token :: kr ++ rest)) :
    Takes (binaryLink (Grammar.parse depth) least start y) c rest
      fun z => ∃ e, z = some e ∧ Like (.binary span op l r) e := by
  have htight : Tightness.conditional < tr :=
    Nat.lt_of_lt_of_le op.conditional_lt_precedence (Nat.le_trans op.precedence_le_rightMin htr)
  have hne : kr ≠ [] := List.length_pos_iff.mp hr.length_pos
  have hright : ReadsAs (Grammar.parse depth (.binary op.rightMin)) kr rest r :=
    (hr.binary htight).readsAs hne hdepth htr hends fun next hop =>
      BinaryOp.precedence_lt_rightMin (hnext next hop)
  have hrest : c.advance.Ahead (kr ++ rest) := hc.advance (by cases op <;> simp [BinaryOp.token])
  rw [binaryLink]
  refine .kind ?_
  rw [hc.kind_cons, binaryOp?_token]
  dsimp only
  rw [if_neg (Nat.not_lt.mpr hleast)]
  refine .advance ((hright _ hrest).bind fun r' c' hr' hc' => .spanFrom (.pure hc' ⟨_, rfl, ?_⟩))
  exact congrArg₂ (Expr.binary .none op) hy hr'

theorem reading_binary (op : BinaryOp) (hl : Reading tl kl l) (hr : Reading tr kr r) (htl : op.leftMin ≤ tl)
    (htr : op.rightMin ≤ tr) (span : Span) :
    Reading op.precedence (kl ++ op.token :: kr) (.binary span op l r) := by
  have hle : op.precedence ≤ tl := Nat.le_trans op.precedence_le_leftMin htl
  have htight : Tightness.conditional < tl := Nat.lt_of_lt_of_le op.conditional_lt_precedence hle
  have hbinary : ReadsBinary op.precedence (kl ++ op.token :: kr) (.binary span op l r) := by
    intro depth least start rest hdepth hleast hends hnext
    rw [List.length_append, List.length_cons] at hdepth
    have hpos := hl.length_pos
    have hleft : Spine (Grammar.parse depth .unary) (binaryLink (Grammar.parse depth) least start) kl
        (op.token :: kr ++ rest) (Like l) := by
      refine hl.binary htight depth least start _ (by omega) (Nat.le_trans hleast hle)
        (by cases op <;> rfl) fun next hop => ?_
      obtain rfl : op = next := Option.some.inj ((binaryOp?_token op).symm.trans hop)
      exact htl
    refine hleft.extend (List.cons_ne_nil _ _) fun y c hy hc => ?_
    exact takes_binaryLink op hy hr htr (by omega) hleast hends hnext hc
  obtain ⟨k, ls, rfl, hstart, -⟩ := hl.head
  refine .of_binary ⟨k, _, rfl, hstart⟩ (hl.balanced.append (balanced_binary op hr.balanced)) ?_ ?_ hbinary
  · exact (hl.noArrow (Nat.lt_of_succ_lt htight)).append fun rest _ => afterOperand_binary op
  · exact Nat.lt_of_le_of_lt op.precedence_le (by decide)

/-- A loose expression is read in places for whole expressions only. -/
theorem Reading.of_expr (ht : t ≤ Tightness.conditional) (hhead : ∃ k ls, ks = k :: ls ∧ starts k = true)
    (hbalanced : TokenKind.Balanced ks) (harrow : Tightness.assignment < t → NoArrow ks)
    (hexpr : ReadsExpr ks e) : Reading t ks e where
  head := by
    obtain ⟨k, ls, rfl, hstart⟩ := hhead
    exact ⟨k, ls, rfl, hstart, fun hle => absurd (Nat.le_trans hle ht) (by decide)⟩
  balanced := hbalanced
  noArrow := harrow
  postfixed hle := absurd (Nat.le_trans hle ht) (by decide)
  unary hle := absurd (Nat.le_trans hle ht) (by decide)
  binary hlt := absurd ht (Nat.not_le.mpr hlt)
  expr := hexpr

theorem reading_conditional {tc tt te : Nat} {kc kt ke : List TokenKind} {cond thenExpr elseExpr : Expr}
    (hcond : Reading tc kc cond) (htc : Tightness.conditional < tc) (hthen : Reading tt kt thenExpr)
    (helse : Reading te ke elseExpr) (span : Span) :
    Reading Tightness.conditional (kc ++ .punct .question :: (kt ++ .punct .colon :: ke))
      (.conditional span cond thenExpr elseExpr) := by
  have hnoArrow := hcond.noArrow (Nat.lt_of_succ_lt htc)
  have hne : kc ≠ [] := List.length_pos_iff.mp hcond.length_pos
  have hexpr : ReadsExpr (kc ++ .punct .question :: (kt ++ .punct .colon :: ke))
      (.conditional span cond thenExpr elseExpr) := by
    intro depth rest hdepth hclose c hc
    rw [List.append_assoc, List.cons_append, List.append_assoc, List.cons_append] at hc
    rw [List.length_append, List.length_cons, List.length_append, List.length_cons] at hdepth
    obtain ⟨depth, rfl⟩ := Nat.exists_eq_succ_of_ne_zero (by omega : depth ≠ 0)
    have hnone : arrowAhead c = none := by
      rw [arrowAhead_eq hc]
      exact hnoArrow _ (.of_head nofun rfl)
    have hwhole : Takes (conditional (Grammar.parse depth)) c rest
        (Like (.conditional span cond thenExpr elseExpr)) := by
      have hoperand : ReadsAs (Grammar.parse depth (.binary 0)) kc
          (.punct .question :: (kt ++ .punct .colon :: (ke ++ rest))) cond :=
        (hcond.binary htc).readsAs hne (by omega) (Nat.zero_le _) rfl nofun
      refine .here ((hoperand c hc).bind fun cond' c₁ hcond' hc₁ => .eat hc₁.kind_cons ?_)
      refine (hthen.expr depth _ (by omega) rfl _ (hc₁.advance (by simp))).bind
        fun then' c₂ hthen' hc₂ => .expect hc₂.kind_cons ?_
      refine (helse.expr depth _ (by omega) hclose _ (hc₂.advance (by simp))).bind
        fun else' c₃ helse' hc₃ => .spanFrom (.pure hc₃ ?_)
      show Expr.conditional .none cond'.bare then'.bare else'.bare = _
      rw [hcond', hthen', helse']
      rfl
    show Takes (Parser.expr (Grammar.parse depth)) c rest _
    rw [Parser.expr]
    refine .get ?_
    rw [hnone]
    refine .here (hwhole.bind fun e' c' he' hc' => .kind ?_)
    rw [hc'.kind_current, assignOp?_of_closes hclose]
    exact .pure hc' he'
  have hbalanced : TokenKind.Balanced (kc ++ .punct .question :: (kt ++ .punct .colon :: ke)) :=
    hcond.balanced.append (.cons (by simp) rfl rfl
      (hthen.balanced.append (.cons (by simp) rfl rfl helse.balanced)))
  obtain ⟨k, ls, rfl, hstart, -⟩ := hcond.head
  refine .of_expr (Nat.le_refl _) ⟨k, _, rfl, hstart⟩ hbalanced (fun _ => ?_) hexpr
  exact hnoArrow.append fun rest _ => .of_head nofun rfl

theorem isAssignable_bare (e : Expr) : isAssignable e.bare = isAssignable e := by cases e <;> rfl

theorem Like.isAssignable {e' : Expr} (h : Like e e') : Parser.isAssignable e' = Parser.isAssignable e := by
  rw [← isAssignable_bare e', h, isAssignable_bare]

theorem reading_assign (op : AssignOp) {tt tv : Nat} {kt kv : List TokenKind} {target value : Expr}
    (htarget : Reading tt kt target) (htt : Tightness.postfixed ≤ tt) (hassignable : isAssignable target = true)
    (hvalue : Reading tv kv value) (span : Span) :
    Reading Tightness.assignment (kt ++ op.token :: kv) (.assign span op target value) := by
  have htight : Tightness.conditional < tt := Nat.lt_of_lt_of_le (by decide) htt
  have hne : kt ≠ [] := List.length_pos_iff.mp htarget.length_pos
  have hexpr : ReadsExpr (kt ++ op.token :: kv) (.assign span op target value) := by
    intro depth rest hdepth hclose c hc
    rw [List.append_assoc, List.cons_append] at hc
    rw [List.length_append, List.length_cons] at hdepth
    obtain ⟨depth, rfl⟩ := Nat.exists_eq_succ_of_ne_zero (by omega : depth ≠ 0)
    have hnone : arrowAhead c = none := by
      rw [arrowAhead_eq hc]
      refine htarget.noArrow (Nat.lt_of_succ_lt htight) _ ?_
      cases op <;> exact .of_head (by rintro ⟨⟩) rfl
    have hcond : Takes (conditional (Grammar.parse depth)) c (op.token :: (kv ++ rest)) (Like target) := by
      have hoperand : ReadsAs (Grammar.parse depth (.binary 0)) kt (op.token :: (kv ++ rest)) target := by
        cases op <;> exact (htarget.binary htight).readsAs hne (by omega) (Nat.zero_le _) rfl (by rintro _ ⟨⟩)
      refine .here ((hoperand c hc).bind fun target' c' htarget' hc' => .not_eat ?_ (.pure hc' htarget'))
      rw [hc'.kind_cons]
      cases op <;> rintro ⟨⟩
    show Takes (Parser.expr (Grammar.parse depth)) c rest _
    rw [Parser.expr]
    refine .get ?_
    rw [hnone]
    refine .here (hcond.bind fun target' c' htarget' hc' => .kind ?_)
    rw [hc'.kind_cons, assignOp?_token]
    dsimp only
    rw [htarget'.isAssignable, hassignable]
    refine .advance ((hvalue.expr depth _ (by omega) hclose _ (hc'.advance ?_)).bind
      fun value' c'' hvalue' hc'' => .spanFrom (.pure hc'' ?_))
    · cases op <;> rintro ⟨⟩
    · exact congrArg₂ (Expr.assign .none op) htarget' hvalue'
  have hbalanced : TokenKind.Balanced (kt ++ op.token :: kv) := by
    refine htarget.balanced.append ?_
    cases op <;> exact .cons (by rintro ⟨⟩) rfl rfl hvalue.balanced
  obtain ⟨k, ls, rfl, hstart, -⟩ := htarget.head
  exact .of_expr (by decide) ⟨k, _, rfl, hstart⟩ hbalanced (fun hlt => absurd hlt (Nat.lt_irrefl _)) hexpr

end

/-! ## Object literals -/

section

variable {t : Nat} {ks rest : List TokenKind} {e : Expr} {c : Cursor}

/-- Properties like `p`, up to spans. -/
def LikeProp (p p' : Property) : Prop := Bare.prop p' = Bare.prop p

/-- The tokens are read as a key, whatever follows. -/
structure KeyReading (ks : List TokenKind) (key : PropKey) : Prop where
  balanced : TokenKind.Balanced ks
  reads : ∀ depth rest (c : Cursor), 3 * ks.length ≤ depth → c.Ahead (ks ++ rest) →
    c.kind ≠ .punct .ellipsis ∧ closes c.kind = false ∧
      Takes (propKey (Grammar.parse depth)) c rest fun r => Bare.propKey r.1 = Bare.propKey key

theorem keyReading_ident (name : String) : KeyReading [Lexeme.wordKind name] (.ident name) := by
  refine ⟨balanced_word name, fun depth rest c _ hc => ?_⟩
  rcases wordKind_cases name with ⟨k, hk, htext⟩ | hk
  · have hname := takes_propertyName hc
    rw [hk] at hc
    refine ⟨by rw [hc.kind_cons]; nofun, by rw [hc.kind_cons]; rfl, ?_⟩
    rw [propKey]
    refine .kind ?_
    rw [hc.kind_cons]
    refine hname.bind fun w c' hw hc' => .pure hc' ?_
    rw [hw]
  · rw [hk] at hc
    refine ⟨by rw [hc.kind_cons]; nofun, by rw [hc.kind_cons]; rfl, ?_⟩
    rw [propKey]
    refine .kind ?_
    rw [hc.kind_cons]
    exact .advance (.pure (hc.advance (by simp)) rfl)

theorem keyReading_str (text : String) : KeyReading [.str text] (.str text) := by
  refine ⟨.cons nofun rfl rfl .nil, fun depth rest c _ hc => ?_⟩
  refine ⟨by rw [hc.kind_cons]; nofun, by rw [hc.kind_cons]; rfl, ?_⟩
  rw [propKey]
  refine .kind ?_
  rw [hc.kind_cons]
  exact .advance (.pure (hc.advance nofun) rfl)

theorem keyReading_computed (h : Reading t ks e) :
    KeyReading (Tokens.enclosed .lbracket .rbracket ks) (.computed e) := by
  refine ⟨.enclosed rfl rfl rfl h.balanced, fun depth rest c hdepth hc => ?_⟩
  rw [Tokens.length_enclosed] at hdepth
  rw [Tokens.enclosed, List.cons_append, List.append_assoc] at hc
  refine ⟨by rw [hc.kind_cons]; rintro ⟨⟩, by rw [hc.kind_cons]; rfl, ?_⟩
  rw [propKey]
  refine .kind ?_
  rw [hc.kind_cons]
  refine .advance ((h.expr depth (.punct .rbracket :: rest) (by omega) rfl _ (hc.advance (by rintro ⟨⟩))).bind
    fun e' c' he' hc' => .expect hc'.kind_cons (.pure (hc'.advance (by rintro ⟨⟩)) ?_))
  exact congrArg PropKey.computed he'

theorem itemReading_init {kk : List TokenKind} {key : PropKey} (hkey : KeyReading kk key)
    (h : Reading t ks e) (span : Span) :
    ItemReading property LikeProp (kk ++ [.punct .colon] ++ ks) (.init span key e false) := by
  have hcolon : TokenKind.Balanced [.punct .colon] := .cons nofun rfl rfl .nil
  refine ⟨(hkey.balanced.append hcolon).append h.balanced,
    fun depth next rest c hdepth hnext hc => ?_⟩
  rw [List.length_append, List.length_append] at hdepth
  rw [List.append_assoc, List.append_assoc] at hc
  obtain ⟨hellipsis, hcloses, htakes⟩ := hkey.reads depth _ c (by omega) hc
  refine ⟨hcloses, ?_⟩
  rw [property]
  refine .here (.not_eat hellipsis (htakes.bind ?_))
  rintro ⟨key', alone⟩ c₁ hkey' hc₁
  refine .kind ?_
  rw [hc₁.kind_cons]
  refine .advance ((h.expr depth (.punct next :: rest) (by omega) (closes_of_endsItem hnext) _
    (hc₁.advance nofun)).bind fun e' c₂ he' hc₂ => .spanFrom (.pure hc₂ ?_))
  exact congrArg₂ (Property.init .none · · false) hkey' he'

theorem itemReading_alone (span span' : Span) (name : String) :
    ItemReading property LikeProp [.ident name] (.init span (.ident name) (.ident span' name) true) := by
  refine ⟨.cons nofun rfl rfl .nil, fun depth next rest c _ hnext hc => ?_⟩
  have hkey : Takes (propKey (Grammar.parse depth)) c (.punct next :: rest)
      (· = (PropKey.ident name, some name)) := by
    rw [propKey]
    refine .kind ?_
    rw [hc.kind_cons]
    exact .advance (.pure (hc.advance nofun) rfl)
  refine ⟨by rw [hc.kind_cons]; rfl, ?_⟩
  rw [property]
  refine .here (.not_eat (by rw [hc.kind_cons]; nofun) (hkey.bind ?_))
  rintro _ c' rfl hc'
  refine .kind ?_
  rw [hc'.kind_cons]
  cases next <;> first | exact .spanFrom (.pure hc' rfl) | cases hnext

theorem itemReading_spread (h : Reading t ks e) (span : Span) :
    ItemReading property LikeProp (.punct .ellipsis :: ks) (.spread span e) := by
  refine ⟨.cons nofun rfl rfl h.balanced, fun depth next rest c hdepth hnext hc => ?_⟩
  rw [List.length_cons] at hdepth
  refine ⟨by rw [hc.kind_cons]; rfl, ?_⟩
  rw [property]
  refine .here (.eat hc.kind_cons ((h.expr depth (.punct next :: rest) (by omega) (closes_of_endsItem hnext) _
    (hc.advance nofun)).bind fun e' c' he' hc' => .spanFrom (.pure hc' ?_)))
  exact congrArg (Property.spread .none) he'

theorem reading_object (t : Nat) {ps : List Property}
    (h : List.Forall₂ (ItemReading property LikeProp) kss ps) (span : Span) :
    Reading t (Tokens.enclosed .lbrace .rbrace (Tokens.separated kss)) (.object span ps) := by
  refine .of_primary t rfl rfl (.enclosed rfl rfl rfl (ItemReading.balanced_separated h)) (.of_head rfl)
    fun depth rest hdepth _ c hc => ?_
  rw [List.length_cons, List.length_append] at hdepth
  rw [List.cons_append, List.append_assoc] at hc
  have hkind : c.current.kind = .punct .lbrace := hc.kind_cons
  have hprops : Takes (commaList (.punct .rbrace) (property (Grammar.parse depth))) c.advance rest _ :=
    ItemReading.takes_commaList h rfl (by decide) (by omega) (hc.advance nofun)
  rw [primary]
  refine .current ?_
  rw [hkind]
  refine .expect hc.kind_cons (hprops.bind fun ps' c' hps' hc' => .spanFrom (.pure hc' ?_))
  have hmap : ps'.map Bare.prop = ps.map Bare.prop := map_eq_map_of_forall₂ hps'
  show Expr.object .none (Bare.props ps') = Expr.object .none (Bare.props ps)
  rw [Bare.props_eq_map, Bare.props_eq_map, hmap]

end

/-! ## Arrow functions -/

section

variable {t : Nat} {ks rest : List TokenKind} {e : Expr} {c : Cursor} {depth : Nat}

/-- Parameters like `p`, up to spans. -/
def LikeParam (p p' : Param) : Prop := Bare.param p' = Bare.param p

/-- The tokens are read as a missing or present default before the end of an item. -/
structure DefaultReading (ks : List TokenKind) (default : Option Expr) : Prop where
  balanced : TokenKind.Balanced ks
  reads : ∀ depth (next : Punct) rest (c : Cursor), 3 * ks.length ≤ depth → endsItem next = true →
    c.Ahead (ks ++ .punct next :: rest) → Takes (default? (Grammar.parse depth)) c (.punct next :: rest)
      fun d => Bare.expr? d = Bare.expr? default ∧ d.isSome = default.isSome

theorem defaultReading_none : DefaultReading [] none := by
  refine ⟨.nil, fun depth next rest c _ hnext hc => ?_⟩
  rw [default?]
  refine .not_eat ?_ (.pure hc ⟨rfl, rfl⟩)
  rw [hc.kind_cons]
  rintro ⟨⟩
  cases hnext

theorem defaultReading_some (h : Reading t ks e) : DefaultReading (.punct .eq :: ks) (some e) := by
  refine ⟨.cons nofun rfl rfl h.balanced, fun depth next rest c hdepth hnext hc => ?_⟩
  rw [List.length_cons] at hdepth
  rw [default?]
  refine .eat hc.kind_cons ((h.expr depth (.punct next :: rest) (by omega) (closes_of_endsItem hnext) _
    (hc.advance nofun)).bind fun e' c' he' hc' => .pure hc' ⟨?_, rfl⟩)
  exact congrArg some he'

theorem takes_binding (hdepth : 0 < depth) (span : Span) (name : String)
    (hc : c.Ahead (.ident name :: rest)) :
    Takes (Grammar.parse depth .binding) c rest fun b => Bare.binding b = Bare.binding (.ident span name) := by
  obtain ⟨depth, rfl⟩ := Nat.exists_eq_succ_of_ne_zero (Nat.ne_of_gt hdepth)
  show Takes (Parser.binding (Grammar.parse depth)) c rest _
  have hkind : c.current.kind = .ident name := hc.kind_cons
  rw [Parser.binding]
  refine .current ?_
  rw [hkind]
  exact .advance (.pure (hc.advance nofun) rfl)

/-- The tokens of a parameter that is a name. -/
def paramTokens (rest : Bool) (name : String) (kd : List TokenKind) : List TokenKind :=
  (if rest then [.punct .ellipsis] else []) ++ (.ident name :: kd)

theorem balanced_paramTokens (isRest : Bool) (name : String)
    (hd : TokenKind.Balanced kd) : TokenKind.Balanced (paramTokens isRest name kd) := by
  have hname : TokenKind.Balanced (.ident name :: kd) := .cons nofun rfl rfl hd
  cases isRest with
  | false => exact hname
  | true => exact .cons nofun rfl rfl hname

theorem readsItem_param {default : Option Expr} {isRest : Bool} {next : Punct}
    (hd : DefaultReading kd default) (span span' : Span) (name : String)
    (hdepth : 3 * (paramTokens isRest name kd).length ≤ depth) (hnext : endsItem next = true)
    (hrest : isRest = true → default = none ∧ next = .rparen) :
    ReadsItem (param (Grammar.parse depth)) (fun p' p => LikeParam p p') .rparen next
      (paramTokens isRest name kd) ⟨span, .ident span' name, default, isRest⟩ := by
  intro c rest hc
  rw [param]
  cases isRest with
  | false =>
    change c.Ahead (.ident name :: (kd ++ .punct next :: rest)) at hc
    change 3 * (kd.length + 1) ≤ depth at hdepth
    refine ⟨by rw [hc.kind_cons]; nofun, .here (.not_eat (by rw [hc.kind_cons]; nofun) ?_)⟩
    refine (takes_binding (by omega) span' name hc).bind fun target c₁ htarget hc₁ => ?_
    refine (hd.reads depth next rest c₁ (by omega) hnext hc₁).bind fun d c₂ hd' hc₂ => .check ?_
    refine .spanFrom (.pure hc₂ ?_)
    show Param.mk .none (Bare.binding target) (Bare.expr? d) _ = _
    rw [htarget, hd'.1]
    rfl
  | true =>
    obtain ⟨rfl, rfl⟩ := hrest rfl
    change c.Ahead (.punct .ellipsis :: .ident name :: (kd ++ .punct .rparen :: rest)) at hc
    change 3 * (kd.length + 1 + 1) ≤ depth at hdepth
    refine ⟨by rw [hc.kind_cons]; nofun, .here (.eat hc.kind_cons ?_)⟩
    refine (takes_binding (by omega) span' name (hc.advance nofun)).bind fun target c₁ htarget hc₁ => ?_
    refine (hd.reads depth .rparen rest c₁ (by omega) rfl hc₁).bind fun d c₂ hd' hc₂ => .check ?_
    rw [hc₂.kind_cons, hd'.2]
    refine .spanFrom (.pure hc₂ ?_)
    show Param.mk .none (Bare.binding target) (Bare.expr? d) _ = _
    rw [htarget, hd'.1]
    rfl

/-- The parameter list of an arrow function is read at every depth that is enough. -/
structure ParamsReading (kss : List (List TokenKind)) (ps : List Param) : Prop where
  balanced : TokenKind.Balanced (Tokens.separated kss)
  reads : ∀ depth, 3 * (Tokens.separated kss).length ≤ depth →
    ReadsItems (param (Grammar.parse depth)) (fun p' p => LikeParam p p') .rparen kss ps

theorem ParamsReading.cons
    {default : Option Expr} {isRest : Bool} (hd : DefaultReading kd default) (h : ParamsReading kss ps)
    (span span' : Span) (name : String) (hrest : isRest = true → default = none ∧ ps = []) :
    ParamsReading (paramTokens isRest name kd :: kss) (⟨span, .ident span' name, default, isRest⟩ :: ps) := by
  have hbalanced := balanced_paramTokens isRest name hd.balanced
  have hreads := h.reads _ (Nat.le_refl _)
  cases kss with
  | nil =>
    cases hreads
    refine ⟨by rwa [Tokens.separated, List.flatMap_nil, List.append_nil], fun depth hdepth => .last ?_⟩
    rw [Tokens.separated, List.flatMap_nil, List.append_nil] at hdepth
    exact readsItem_param hd span span' name hdepth rfl fun hlast => ⟨(hrest hlast).1, rfl⟩
  | cons ks kss =>
    have hmore : Tokens.separated (paramTokens isRest name kd :: ks :: kss)
        = paramTokens isRest name kd ++ .punct .comma :: Tokens.separated (ks :: kss) := rfl
    have hnot : isRest = false := by
      rw [Bool.eq_false_iff]
      intro hlast
      rw [(hrest hlast).2] at hreads
      cases hreads
    refine ⟨?_, fun depth hdepth => ?_⟩
    · rw [hmore]
      exact hbalanced.append (.cons (by rintro ⟨⟩) rfl rfl h.balanced)
    · rw [hmore, List.length_append, List.length_cons] at hdepth
      refine .more (readsItem_param hd span span' name (by omega) rfl ?_) (h.reads depth (by omega))
      rw [hnot]
      rintro ⟨⟩

/-- The tokens of an arrow function with this body. -/
def arrowTokens (isAsync : Bool) (kss : List (List TokenKind)) (kb : List TokenKind) : List TokenKind :=
  (if isAsync then [.ident "async"] else [])
    ++ (Tokens.enclosed .lparen .rparen (Tokens.separated kss) ++ .punct .arrow :: kb)

theorem length_arrowTokens (isAsync : Bool) (kss : List (List TokenKind)) (kb : List TokenKind) :
    (arrowTokens isAsync kss kb).length
      = (if isAsync then 1 else 0) + ((Tokens.separated kss).length + 2 + (kb.length + 1)) := by
  rw [arrowTokens, List.length_append, List.length_append, Tokens.length_enclosed, List.length_cons]
  cases isAsync <;> rfl

theorem arrowTokens_append (isAsync : Bool) (kss : List (List TokenKind)) (kb rest : List TokenKind) :
    arrowTokens isAsync kss kb ++ rest = arrowTokens isAsync kss (kb ++ rest) := by
  rw [arrowTokens, arrowTokens, List.append_assoc, List.append_assoc, List.cons_append]

theorem arrowIn_arrowTokens (h : TokenKind.Balanced (Tokens.separated kss))
    (isAsync : Bool) (kb : List TokenKind) : arrowIn (arrowTokens isAsync kss kb) = some isAsync := by
  have hafter : afterParams (Tokens.enclosed .lparen .rparen (Tokens.separated kss) ++ .punct .arrow :: kb)
      = some (.punct .arrow :: kb) := by
    rw [Tokens.enclosed, List.cons_append, List.append_assoc]
    exact TokenKind.afterClose_enclosed h _
  cases isAsync with
  | false =>
    have hasync : startsAsync (arrowTokens false kss kb) = false := rfl
    rw [arrowIn, hasync, if_neg (by decide)]
    show (afterParams (Tokens.enclosed .lparen .rparen (Tokens.separated kss) ++ .punct .arrow :: kb)).bind _ = _
    rw [hafter]
    rfl
  | true =>
    have hasync : startsAsync (arrowTokens true kss kb) = true := rfl
    rw [arrowIn, hasync, if_pos rfl]
    show (afterParams (Tokens.enclosed .lparen .rparen (Tokens.separated kss) ++ .punct .arrow :: kb)).bind _ = _
    rw [hafter]
    rfl

theorem takes_arrowParams (hparams : ParamsReading kss ps)
    (hdepth : 3 * (Tokens.separated kss).length ≤ depth)
    (hc : c.Ahead (.punct .lparen :: (Tokens.separated kss ++ .punct .rparen :: rest))) :
    Takes (arrowParams (Grammar.parse depth)) c rest
      fun ps' => List.Forall₂ (fun p' p => LikeParam p p') ps' ps := by
  have hkind : c.current.kind = .punct .lparen := hc.kind_cons
  refine .current ?_
  rw [hkind]
  exact .expect hc.kind_cons (takes_commaList (by decide) (hparams.reads depth hdepth) (hc.advance (by rintro ⟨⟩)))

theorem takes_arrowBody (hbody : Reading t ks e) (hbrace : ks.head? ≠ some (.punct .lbrace))
    (hdepth : 3 * ks.length ≤ depth) (hclose : closes (rest.headD .eof) = true) (hc : c.Ahead (ks ++ rest)) :
    Takes (arrowBody (Grammar.parse depth)) c rest fun body => ∃ e', body = .expr e' ∧ Like e e' := by
  refine .check ?_
  have hnot : (c.kind == .punct .lbrace) = false := by
    obtain ⟨k, ls, rfl, -⟩ := hbody.head
    rw [hc.kind_current, beq_eq_false_iff_ne]
    rintro rfl
    exact hbrace rfl
  rw [hnot]
  exact (hbody.expr depth rest hdepth hclose _ hc).bind fun e' c₁ he' hc₁ => .pure hc₁ ⟨e', rfl, he'⟩

theorem takes_arrowRest (hparams : ParamsReading kss ps)
    (hbody : Reading t ks e) (hbrace : ks.head? ≠ some (.punct .lbrace)) (isAsync : Bool)
    (start span span' : Span) (hdepth : 3 * (Tokens.separated kss).length ≤ depth)
    (hdepth' : 3 * ks.length ≤ depth) (hclose : closes (rest.headD .eof) = true)
    (hc : c.Ahead (.punct .lparen :: (Tokens.separated kss ++ .punct .rparen :: .punct .arrow :: (ks ++ rest)))) :
    Takes (arrowRest (Grammar.parse depth) start isAsync) c rest
      (Like (.func span ⟨span', .arrow, none, ps, .expr e, isAsync, false⟩)) := by
  rw [arrowRest]
  refine (takes_arrowParams hparams hdepth hc).bind fun ps' c₁ hps' hc₁ => .expect hc₁.kind_cons ?_
  have hc₂ : c₁.advance.Ahead (ks ++ rest) := hc₁.advance (by rintro ⟨⟩)
  refine (takes_arrowBody hbody hbrace hdepth' hclose hc₂).bind ?_
  rintro _ c₃ ⟨e', rfl, he'⟩ hc₃
  refine .spanFrom (.pure hc₃ ?_)
  have hmap : ps'.map Bare.param = ps.map Bare.param := map_eq_map_of_forall₂ hps'
  show Expr.func .none ⟨.none, .arrow, none, Bare.params ps', .expr e'.bare, isAsync, false⟩
    = Expr.func .none ⟨.none, .arrow, none, Bare.params ps, .expr e.bare, isAsync, false⟩
  rw [Bare.params_eq_map, Bare.params_eq_map, hmap, he']

theorem reading_arrow (hparams : ParamsReading kss ps)
    (hbody : Reading t ks e) (hbrace : ks.head? ≠ some (.punct .lbrace)) (isAsync : Bool) (span span' : Span) :
    Reading Tightness.assignment (arrowTokens isAsync kss ks)
      (.func span ⟨span', .arrow, none, ps, .expr e, isAsync, false⟩) := by
  have hexpr : ReadsExpr (arrowTokens isAsync kss ks)
      (.func span ⟨span', .arrow, none, ps, .expr e, isAsync, false⟩) := by
    intro depth rest hdepth hclose c hc
    rw [length_arrowTokens] at hdepth
    obtain ⟨depth, rfl⟩ := Nat.exists_eq_succ_of_ne_zero (by omega : depth ≠ 0)
    rw [arrowTokens_append] at hc
    have hsome : arrowAhead c = some isAsync := by
      rw [arrowAhead_eq hc]
      exact arrowIn_arrowTokens hparams.balanced isAsync _
    show Takes (Parser.expr (Grammar.parse depth)) c rest _
    rw [Parser.expr]
    refine .get ?_
    rw [hsome]
    show Takes (arrow (Grammar.parse depth) isAsync) c rest _
    rw [arrow]
    refine .here ?_
    cases isAsync with
    | false =>
      rw [arrowTokens, if_neg (by decide), List.nil_append, Tokens.enclosed, List.cons_append,
        List.append_assoc] at hc
      exact takes_arrowRest hparams hbody hbrace false _ span span' (by omega) (by omega) hclose hc
    | true =>
      rw [arrowTokens, if_pos rfl, List.singleton_append, Tokens.enclosed, List.cons_append,
        List.append_assoc] at hc
      exact .advance (takes_arrowRest hparams hbody hbrace true _ span span' (by omega) (by omega) hclose
        (hc.advance (by rintro ⟨⟩)))
  have hbalanced : TokenKind.Balanced (arrowTokens isAsync kss ks) := by
    have hlist : TokenKind.Balanced
        (Tokens.enclosed .lparen .rparen (Tokens.separated kss) ++ .punct .arrow :: ks) :=
      .append (.enclosed rfl rfl rfl hparams.balanced) (.cons (by rintro ⟨⟩) rfl rfl hbody.balanced)
    cases isAsync with
    | false => exact hlist
    | true => exact .cons (by rintro ⟨⟩) rfl rfl hlist
  have hhead : ∃ k ls, arrowTokens isAsync kss ks = k :: ls ∧ starts k = true := by
    cases isAsync <;> exact ⟨_, _, rfl, rfl⟩
  exact .of_expr (by decide) hhead hbalanced (fun hlt => absurd hlt (Nat.lt_irrefl _)) hexpr

end

end MatchChain.Parser
