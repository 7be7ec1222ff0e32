import MatchChain.Proofs.Syntax.Bare
import MatchChain.Proofs.Syntax.Taking
import MatchChain.Syntax.Parser

/-!
# Reading the tokens of a formula

`Reading t ks e` says that the tokens `ks` are read as `e`, up to spans, in every place that asks for a
tightness of at most `t`, whatever follows that cannot be a part of `e`. There is a lemma for every kind
of node. Operands to the left of a link or an operator are read by the loop that also reads the link or
the operator, so for them a `Reading` holds the state of that loop.

A reference between productions that takes no token goes from expressions to binary operands to unary
ones to postfixed ones, so three times the number of tokens is depth enough.
-/

set_option autoImplicit false

namespace MatchChain.Parser

variable {k : TokenKind}

/-! ## What can follow -/

/-- A token that adds no link to an operand before it, and makes no function of a name. -/
def endsOperand : TokenKind → Bool
  | .punct .dot | .punct .questionDot | .punct .lbracket | .punct .lparen | .punct .plusPlus
  | .punct .minusMinus | .template _ | .keyword .«function» => false
  | _ => true

/-- A token that ends the expression before it. -/
def closes : TokenKind → Bool
  | .punct .rparen | .punct .rbracket | .punct .rbrace | .punct .comma | .punct .colon | .eof => true
  | _ => false

/-- Punctuation that ends an item of a list. -/
def endsItem : Punct → Bool
  | .rparen | .rbracket | .rbrace | .comma => true
  | _ => false

/-- A token that a formula can start with. -/
def starts : TokenKind → Bool
  | .ident _ | .str _ | .keyword .«true» | .keyword .«false» | .keyword .«null» | .keyword .«this»
  | .punct .lparen | .punct .lbracket | .punct .lbrace => true
  | k => (unaryOp? k).isSome

/-- What comes after an operand makes no parameter list of it. -/
structure AfterOperand (rest : List TokenKind) : Prop where
  not_arrow : rest.headD .eof ≠ .punct .arrow
  not_name : ∀ name, rest.headD .eof ≠ .ident name
  not_params : rest.headD .eof = .punct .lparen →
    ∀ after, TokenKind.afterClose 0 rest = some after → after.headD .eof ≠ .punct .arrow

/-- These tokens are not the start of an arrow function. -/
def NoArrow (ks : List TokenKind) : Prop := ∀ rest, AfterOperand rest → arrowIn (ks ++ rest) = none

theorem AfterOperand.of_head {rest : List TokenKind} (harrow : k ≠ .punct .arrow)
    (hopens : opensParams k = false) : AfterOperand (k :: rest) := by
  refine ⟨harrow, ?_, ?_⟩
  · rintro name rfl
    cases hopens
  · rintro rfl
    cases hopens

namespace NoArrow

variable {k : TokenKind} {ks ls : List TokenKind}

theorem of_head (hopens : opensParams k = false) : NoArrow (k :: ks) := by
  intro rest _
  have hasync : startsAsync (k :: ks ++ rest) = false := by
    cases k with
    | ident => cases hopens
    | _ => rfl
  rw [arrowIn, hasync, if_neg (by decide), List.cons_append]
  cases k with
  | ident => cases hopens
  | punct p => cases p <;> first | rfl | cases hopens
  | _ => rfl

theorem name (name : String) : NoArrow [.ident name] := by
  intro rest hrest
  rw [arrowIn]
  cases hasync : startsAsync ([.ident name] ++ rest) with
  | false => simpa [afterParams] using hrest.not_arrow
  | true =>
    rw [startsAsync, Bool.and_eq_true] at hasync
    cases rest with
    | nil => cases hasync.2
    | cons k rest =>
      have hopens : opensParams k = true := hasync.2
      unfold opensParams at hopens
      split at hopens
      case h_1 name => exact absurd rfl (hrest.not_name name)
      case h_2 =>
        show (TokenKind.afterClose 0 (.punct .lparen :: rest)).bind _ = none
        cases hafter : TokenKind.afterClose 0 (.punct .lparen :: rest) with
        | none => rfl
        | some after =>
          have hnot := hrest.not_params rfl after hafter
          rw [Option.bind_some, if_neg (by simpa using hnot)]
      case h_3 => cases hopens

theorem enclosed (hks : TokenKind.Balanced ks) : NoArrow (Tokens.enclosed .lparen .rparen ks) := by
  intro rest hrest
  have hafter : afterParams (Tokens.enclosed .lparen .rparen ks ++ rest) = some rest := by
    rw [Tokens.enclosed, List.cons_append, List.append_assoc]
    exact TokenKind.afterClose_enclosed hks rest
  have hnot : (rest.headD .eof == .punct .arrow) = false := by simpa using hrest.not_arrow
  have hasync : startsAsync (Tokens.enclosed .lparen .rparen ks ++ rest) = false := rfl
  rw [arrowIn, hasync, if_neg (by decide), hafter, Option.bind_some, hnot]
  rfl

theorem append (hks : NoArrow ks) (hls : ∀ rest, AfterOperand rest → AfterOperand (ls ++ rest)) :
    NoArrow (ks ++ ls) := by
  intro rest hrest
  rw [List.append_assoc]
  exact hks _ (hls rest hrest)

end NoArrow

/-! ## Readings -/

/-- Expressions like `e`, up to spans. -/
def Like (e e' : Expr) : Prop := e'.bare = e.bare

/-- The parser reads these tokens before those that follow, as an expression like `e`. -/
def ReadsAs (p : Parser Expr) (ks rest : List TokenKind) (e : Expr) : Prop :=
  ∀ c : Cursor, c.Ahead (ks ++ rest) → Takes p c rest (Like e)

/-- The loop over links reads the tokens as an operand and goes on. -/
def ReadsPostfixed (ks : List TokenKind) (e : Expr) : Prop :=
  ∀ depth start rest, 3 * ks.length ≤ depth + 3 → rest.headD .eof ≠ .keyword .«function» →
    Spine (constructOrPrimary (Grammar.parse depth)) (link (Grammar.parse depth) start) ks rest (Like e)

def ReadsUnary (ks : List TokenKind) (e : Expr) : Prop :=
  ∀ depth rest, 3 * ks.length ≤ depth + 2 → endsOperand (rest.headD .eof) = true →
    ReadsAs (Grammar.parse depth .unary) ks rest e

/-- The loop over binary operators reads the tokens as an operand and goes on, unless an operator
    follows that takes a part of the operand away. -/
def ReadsBinary (tightness : Nat) (ks : List TokenKind) (e : Expr) : Prop :=
  ∀ depth least start rest, 3 * ks.length ≤ depth + 2 → least ≤ tightness →
    endsOperand (rest.headD .eof) = true →
    (∀ op, binaryOp? (rest.headD .eof) = some op → op.leftMin ≤ tightness) →
    Spine (Grammar.parse depth .unary) (binaryLink (Grammar.parse depth) least start) ks rest (Like e)

def ReadsExpr (ks : List TokenKind) (e : Expr) : Prop :=
  ∀ depth rest, 3 * ks.length ≤ depth → closes (rest.headD .eof) = true →
    ReadsAs (Grammar.parse depth .expr) ks rest e

/-- The tokens are read as the expression in every place that asks for at most this tightness. -/
structure Reading (tightness : Nat) (ks : List TokenKind) (e : Expr) : Prop where
  head : ∃ k ls, ks = k :: ls ∧ starts k = true ∧ (Tightness.postfixed ≤ tightness → unaryOp? k = none)
  balanced : TokenKind.Balanced ks
  noArrow : Tightness.assignment < tightness → NoArrow ks
  postfixed : Tightness.postfixed ≤ tightness → ReadsPostfixed ks e
  unary : Tightness.unary ≤ tightness → ReadsUnary ks e
  binary : Tightness.conditional < tightness → ReadsBinary tightness ks e
  expr : ReadsExpr ks e

/-! ## Ends of loops -/

section

variable {self : Grammar} {c : Cursor} {start : Span} {e : Expr} {ks rest : List TokenKind} {depth : Nat}

theorem link_none (h : endsOperand c.kind = true) : link self start e c = .ok (none, c) := by
  have hcurrent : current c = .ok (c.current, c) := rfl
  rw [link, bind_ok hcurrent]
  rw [Cursor.kind] at h
  generalize c.current.kind = k at h
  cases k with
  | punct p => cases p <;> first | rfl | cases h
  | template => cases h
  | _ => rfl

theorem binaryLink_none {least : Nat} (h : ∀ op, binaryOp? c.kind = some op → op.precedence < least) :
    binaryLink self least start e c = .ok (none, c) := by
  have hkind : kind c = .ok (c.kind, c) := rfl
  rw [binaryLink, bind_ok hkind]
  cases hop : binaryOp? c.kind with
  | none => rfl
  | some op =>
    dsimp only
    rw [if_pos (h op hop)]
    rfl

theorem endsOperand_of_closes (h : closes k = true) : endsOperand k = true := by
  unfold closes at h
  split at h <;> first | rfl | cases h

theorem binaryOp?_of_closes (h : closes k = true) : binaryOp? k = none := by
  unfold closes at h
  split at h <;> first | rfl | cases h

theorem assignOp?_of_closes (h : closes k = true) : assignOp? k = none := by
  unfold closes at h
  split at h <;> first | rfl | cases h

theorem ne_question_of_closes (h : closes k = true) : k ≠ .punct .question := by
  rintro rfl
  cases h

theorem afterOperand_of_closes (h : closes (rest.headD .eof) = true) : AfterOperand rest := by
  generalize hk : rest.headD .eof = k at h
  have hopens : opensParams k = false := by
    unfold closes at h
    split at h <;> first | rfl | cases h
  refine ⟨?_, ?_, ?_⟩
  · rw [hk]
    rintro rfl
    cases h
  · intro name
    rw [hk]
    rintro rfl
    cases h
  · rw [hk]
    rintro rfl
    cases h

/-- Operands joined by binary operators, up to one that binds less tightly than asked for. -/
theorem readsAs_binary {least : Nat}
    (hspine : ∀ start, Spine (Grammar.parse depth .unary) (binaryLink (Grammar.parse depth) least start)
      ks rest (Like e))
    (hstop : ∀ op, binaryOp? (rest.headD .eof) = some op → op.precedence < least) :
    ReadsAs (Grammar.parse (depth + 1) (.binary least)) ks rest e := by
  intro c hc
  exact .here ((hspine _).finish (fun y c hc => binaryLink_none (hc.kind_current ▸ hstop)) hc)

/-- An expression that is no arrow function, no condition and no assignment. -/
theorem readsAs_expr (harrow : NoArrow ks)
    (hoperand : ReadsAs (Grammar.parse depth (.binary 0)) ks rest e)
    (hclose : closes (rest.headD .eof) = true) : ReadsAs (Grammar.parse (depth + 1) .expr) ks rest e := by
  intro c hc
  have hnone : arrowAhead c = none := by
    rw [arrowAhead_eq hc]
    exact harrow rest (afterOperand_of_closes hclose)
  have hcond : Takes (conditional (Grammar.parse depth)) c rest (Like e) := by
    refine .here ((hoperand c hc).bind fun e' c' he' hc' => .not_eat ?_ (.pure hc' he'))
    rw [hc'.kind_current]
    exact ne_question_of_closes hclose
  show Takes (Parser.expr (Grammar.parse depth)) c rest (Like e)
  rw [Parser.expr]
  refine .get ?_
  rw [hnone]
  refine .here (hcond.bind fun e' c' he' hc' => .kind ?_)
  rw [hc'.kind_current, assignOp?_of_closes hclose]
  exact .pure hc' he'

end

/-! ## From tighter to looser places -/

section

variable {t : Nat} {ks rest : List TokenKind} {e : Expr}

theorem Reading.length_pos (h : Reading t ks e) : 0 < ks.length := by
  obtain ⟨k, ls, rfl, -⟩ := h.head
  exact Nat.succ_pos _

theorem ReadsBinary.readsAs (h : ReadsBinary t ks e) (hne : ks ≠ []) {depth least : Nat}
    (hdepth : 3 * ks.length ≤ depth + 1) (hleast : least ≤ t) (hends : endsOperand (rest.headD .eof) = true)
    (hstop : ∀ op, binaryOp? (rest.headD .eof) = some op → op.precedence < least) :
    ReadsAs (Grammar.parse depth (.binary least)) ks rest e := by
  have hpos := List.length_pos_iff.mpr hne
  obtain ⟨depth, rfl⟩ := Nat.exists_eq_succ_of_ne_zero (by omega : depth ≠ 0)
  refine readsAs_binary (fun start => ?_) hstop
  refine h depth least start rest (by omega) hleast hends fun op hop => ?_
  exact Nat.le_trans op.leftMin_le (Nat.le_trans (hstop op hop) hleast)

theorem ReadsBinary.readsExpr (h : ReadsBinary t ks e) (hne : ks ≠ []) (harrow : NoArrow ks) :
    ReadsExpr ks e := by
  intro depth rest hdepth hclose
  have hpos := List.length_pos_iff.mpr hne
  obtain ⟨depth, rfl⟩ := Nat.exists_eq_succ_of_ne_zero (by omega : depth ≠ 0)
  refine readsAs_expr harrow ?_ hclose
  refine h.readsAs hne (by omega) (Nat.zero_le t) (endsOperand_of_closes hclose) fun op hop => ?_
  rw [binaryOp?_of_closes hclose] at hop
  cases hop

theorem ReadsUnary.readsBinary (h : ReadsUnary ks e) : ReadsBinary t ks e := by
  intro depth least start rest hdepth _ hends _
  exact .start fun c hc => h depth rest hdepth hends c hc

theorem ReadsPostfixed.readsUnary (h : ReadsPostfixed ks e)
    (hhead : ∃ k ls, ks = k :: ls ∧ starts k = true ∧ unaryOp? k = none) : ReadsUnary ks e := by
  intro depth rest hdepth hends c hc
  obtain ⟨k, ls, rfl, hstart, hop⟩ := hhead
  rw [List.length_cons] at hdepth
  obtain ⟨depth, rfl⟩ := Nat.exists_eq_succ_of_ne_zero (by omega : depth ≠ 0)
  have hnot : rest.headD .eof ≠ .keyword .«function» := by
    intro heq
    rw [heq] at hends
    cases hends
  have hpostfixed : Takes (postfixed (Grammar.parse depth)) c rest (Like e) :=
    .here ((h depth _ rest (by rw [List.length_cons]; omega) hnot).finish
      (fun y c hc => link_none (hc.kind_current ▸ hends)) hc)
  show Takes (Parser.unary (Grammar.parse depth)) c rest (Like e)
  have hkind : c.current.kind = k := hc.kind_cons
  rw [Parser.unary]
  refine .current ?_
  rw [hkind]
  unfold starts at hstart
  split at hstart
  all_goals first | exact hpostfixed | (rw [hop] at hstart; cases hstart)

theorem Reading.of_binary (hhead : ∃ k ls, ks = k :: ls ∧ starts k = true)
    (hbalanced : TokenKind.Balanced ks) (harrow : NoArrow ks) (ht : t < Tightness.unary)
    (hbinary : ReadsBinary t ks e) : Reading t ks e where
  head := by
    obtain ⟨k, ls, rfl, hstart⟩ := hhead
    exact ⟨k, ls, rfl, hstart, fun hle => absurd (Nat.lt_of_le_of_lt hle ht) (by decide)⟩
  balanced := hbalanced
  noArrow _ := harrow
  postfixed hle := absurd (Nat.lt_of_le_of_lt hle ht) (by decide)
  unary hle := absurd (Nat.lt_of_le_of_lt hle ht) (by decide)
  binary _ := hbinary
  expr := by
    obtain ⟨k, ls, rfl, -⟩ := hhead
    exact hbinary.readsExpr (List.cons_ne_nil k ls) harrow

theorem Reading.of_unary (hhead : ∃ k ls, ks = k :: ls ∧ starts k = true)
    (hbalanced : TokenKind.Balanced ks) (harrow : NoArrow ks) (hunary : ReadsUnary ks e) :
    Reading Tightness.unary ks e where
  head := by
    obtain ⟨k, ls, rfl, hstart⟩ := hhead
    exact ⟨k, ls, rfl, hstart, fun hle => absurd hle (by decide)⟩
  balanced := hbalanced
  noArrow _ := harrow
  postfixed hle := absurd hle (by decide)
  unary _ := hunary
  binary _ := hunary.readsBinary
  expr := by
    obtain ⟨k, ls, rfl, -⟩ := hhead
    exact (hunary.readsBinary (t := 0)).readsExpr (List.cons_ne_nil k ls) harrow

/-- An operand without operators is read in every place. -/
theorem Reading.of_postfixed (t : Nat) (hhead : ∃ k ls, ks = k :: ls ∧ starts k = true ∧ unaryOp? k = none)
    (hbalanced : TokenKind.Balanced ks) (harrow : NoArrow ks) (hpostfixed : ReadsPostfixed ks e) :
    Reading t ks e := by
  have hunary := hpostfixed.readsUnary hhead
  obtain ⟨k, ls, rfl, hstart, hop⟩ := hhead
  exact {
    head := ⟨k, ls, rfl, hstart, fun _ => hop⟩
    balanced := hbalanced
    noArrow := fun _ => harrow
    postfixed := fun _ => hpostfixed
    unary := fun _ => hunary
    binary := fun _ => hunary.readsBinary
    expr := (hunary.readsBinary (t := t)).readsExpr (List.cons_ne_nil k ls) harrow }

end

/-! ## Primary expressions -/

section

variable {t : Nat} {ks : List TokenKind} {e : Expr}

/-- What `primary` reads is an operand in every place. -/
theorem Reading.of_primary (t : Nat) (hstart : starts k = true) (hop : unaryOp? k = none)
    (hbalanced : TokenKind.Balanced (k :: ks)) (harrow : NoArrow (k :: ks))
    (h : ∀ depth rest, 3 * (k :: ks).length ≤ depth + 3 → rest.headD .eof ≠ .keyword .«function» →
      ReadsAs (primary (Grammar.parse depth)) (k :: ks) rest e) : Reading t (k :: ks) e := by
  refine .of_postfixed t ⟨k, ks, rfl, hstart, hop⟩ hbalanced harrow fun depth start rest hdepth hnot => ?_
  refine .start fun c hc => ?_
  have hnew : (c.kind == .keyword .«new») = false := by
    rw [hc.kind_current]
    rw [beq_eq_false_iff_ne]
    rintro rfl
    cases hstart
  rw [constructOrPrimary]
  refine .check ?_
  rw [hnew]
  exact h depth rest hdepth hnot c hc

theorem reading_ident (t : Nat) (span : Span) (name : String) :
    Reading t [.ident name] (.ident span name) := by
  refine .of_primary t rfl rfl (.cons (by simp) rfl rfl .nil) (.name name) fun depth rest _ hnot c hc => ?_
  have hfunction : asyncFunctionAhead c = false := by
    have hsecond : (c.peek 1).kind = rest.headD .eof := by
      have hpeek := hc.kind_tokenAt 1
      cases rest <;> exact hpeek
    rw [asyncFunctionAhead, hsecond, beq_eq_false_iff_ne.mpr hnot]
    simp
  rw [primary]
  refine .current ?_
  have hkind : c.current.kind = .ident name := hc.kind_cons
  rw [hkind]
  refine .get (.advance ?_)
  rw [hfunction]
  exact .pure (hc.advance (by simp)) rfl

/-- The expressions that are a single token, names apart. -/
def literal? : TokenKind → Option (Span → Expr)
  | .str text => some (.str · text)
  | .keyword .«true» => some (.bool · true)
  | .keyword .«false» => some (.bool · false)
  | .keyword .«null» => some .null
  | .keyword .«this» => some .thisRef
  | _ => none

theorem primary_literal {self : Grammar} {c : Cursor} {e : Span → Expr} (h : literal? c.kind = some e) :
    primary self c = .ok (e c.current.span, c.advance) := by
  have hcurrent : current c = .ok (c.current, c) := rfl
  change literal? c.current.kind = some e at h
  rw [primary, bind_ok hcurrent]
  generalize c.current.kind = k at h
  unfold literal? at h
  split at h <;> cases h <;> rfl

theorem reading_literal (t : Nat) {e : Span → Expr} (h : literal? k = some e) (span : Span) :
    Reading t [k] (e span) := by
  have hfacts : starts k = true ∧ unaryOp? k = none ∧ opensParams k = false ∧ k ≠ .eof ∧
      k.isOpening = false ∧ k.isClosing = false ∧ ∀ span', (e span').bare = (e span).bare := by
    unfold literal? at h
    split at h <;> cases h <;> exact ⟨rfl, rfl, rfl, nofun, rfl, rfl, fun _ => rfl⟩
  obtain ⟨hstart, hop, hopens, heof, hopening, hclosing, hbare⟩ := hfacts
  refine .of_primary t hstart hop (.cons heof hopening hclosing .nil) (.of_head hopens)
    fun depth rest _ _ c hc => ?_
  have hkind : c.kind = k := hc.kind_cons
  exact ⟨_, _, primary_literal (hkind ▸ h), hbare _, hc.advance heof⟩

/-- An expression in parentheses is read in every place. -/
theorem reading_enclosed (u : Nat) (h : Reading t ks e) :
    Reading u (Tokens.enclosed .lparen .rparen ks) e := by
  refine .of_primary u rfl rfl (.enclosed rfl rfl rfl h.balanced) (.enclosed h.balanced)
    fun depth rest hdepth _ c hc => ?_
  rw [List.length_cons, List.length_append] at hdepth
  rw [List.cons_append, List.append_assoc] at hc
  rw [primary]
  refine .current ?_
  have hkind : c.current.kind = .punct .lparen := hc.kind_cons
  rw [hkind]
  refine .advance ((h.expr depth _ (by omega) rfl _ (hc.advance (by simp))).bind fun e' c' he' hc' => ?_)
  exact .expect hc'.kind_cons (.pure (hc'.advance (by simp)) he')

end

/-! ## Lists of expressions -/

section

variable {α : Type} {item : Grammar → Parser α} {like : α → α → Prop} {close : Punct} {c : Cursor}
  {kss : List (List TokenKind)} {xs : List α} {rest : List TokenKind} {depth : Nat}

/-- The tokens are read as an item of a list, before a comma or the end of the list. -/
structure ItemReading (item : Grammar → Parser α) (like : α → α → Prop) (ks : List TokenKind) (x : α) :
    Prop where
  balanced : TokenKind.Balanced ks
  reads : ∀ (depth : Nat) (next : Punct) (rest : List TokenKind) (c : Cursor), 3 * ks.length ≤ depth →
    endsItem next = true → c.Ahead (ks ++ .punct next :: rest) →
      closes c.kind = false ∧ Takes (item (Grammar.parse depth)) c (.punct next :: rest) (like x)

theorem closes_of_endsItem {p : Punct} (h : endsItem p = true) : closes (.punct p) = true := by
  cases p <;> first | rfl | cases h

theorem balanced_commas (h : ∀ ks ∈ kss, TokenKind.Balanced ks) :
    TokenKind.Balanced (kss.flatMap (.punct .comma :: ·)) := by
  induction kss with
  | nil => exact .nil
  | cons ks kss ih =>
    rw [List.forall_mem_cons] at h
    exact .append (.cons (by simp) rfl rfl h.1) (ih h.2)

theorem balanced_separated (h : ∀ ks ∈ kss, TokenKind.Balanced ks) :
    TokenKind.Balanced (Tokens.separated kss) := by
  cases kss with
  | nil => exact .nil
  | cons ks kss =>
    rw [List.forall_mem_cons] at h
    exact h.1.append (balanced_commas h.2)

theorem ItemReading.balanced_separated (h : List.Forall₂ (ItemReading item like) kss xs) :
    TokenKind.Balanced (Tokens.separated kss) := by
  refine Parser.balanced_separated ?_
  induction h with
  | nil => simp
  | cons hx _ ih => exact List.forall_mem_cons.mpr ⟨hx.balanced, ih⟩

theorem map_eq_map_of_forall₂ {β : Type} {f : α → β} {as : List α}
    (h : List.Forall₂ (fun a x => f a = f x) as xs) : as.map f = xs.map f := by
  rw [← List.forall₂_eq_eq_eq, List.forall₂_map_left_iff, List.forall₂_map_right_iff]
  exact h

theorem length_le_of_mem {ks : List TokenKind} (h : ks ∈ kss) :
    ks.length ≤ (Tokens.separated kss).length := by
  have hcommas : ∀ {kss : List (List TokenKind)}, ks ∈ kss →
      ks.length ≤ (kss.flatMap (TokenKind.punct .comma :: ·)).length := by
    intro kss hks
    have hsub := List.sublist_flatten_of_mem (List.mem_map_of_mem (f := (TokenKind.punct .comma :: ·)) hks)
    exact Nat.le_trans (Nat.le_succ _) hsub.length_le
  cases kss with
  | nil => cases h
  | cons ks' kss =>
    rw [Tokens.separated, List.length_append]
    rcases List.mem_cons.mp h with rfl | htail
    · exact Nat.le_add_right _ _
    · exact Nat.le_add_left_of_le (hcommas htail)

theorem ItemReading.readsItems (h : List.Forall₂ (ItemReading item like) kss xs)
    (hclose : endsItem close = true) (hdepth : 3 * (Tokens.separated kss).length ≤ depth) :
    ReadsItems (item (Grammar.parse depth)) (fun a x => like x a) close kss xs := by
  have hlength : ∀ ks ∈ kss, 3 * ks.length ≤ depth := fun ks hks =>
    Nat.le_trans (Nat.mul_le_mul_left 3 (length_le_of_mem hks)) hdepth
  refine .of_forall₂ ?_
  clear hdepth
  induction h with
  | nil => exact .nil
  | @cons ks x _ _ hx _ ih =>
    rw [List.forall_mem_cons] at hlength
    refine .cons (fun next hnext c rest hc => ?_) (ih hlength.2)
    have hends : endsItem next = true := by
      rcases hnext with rfl | rfl
      · rfl
      · exact hclose
    obtain ⟨hkind, htakes⟩ := hx.reads depth next rest c hlength.1 hends hc
    refine ⟨?_, htakes⟩
    intro heq
    rw [heq, closes_of_endsItem hclose] at hkind
    cases hkind

theorem ItemReading.takes_commaList (h : List.Forall₂ (ItemReading item like) kss xs)
    (hclose : endsItem close = true) (hne : close ≠ .comma)
    (hdepth : 3 * (Tokens.separated kss).length ≤ depth)
    (hc : c.Ahead (Tokens.separated kss ++ .punct close :: rest)) :
    Takes (commaList (.punct close) (item (Grammar.parse depth))) c rest
      fun as => List.Forall₂ (fun a x => like x a) as xs :=
  Parser.takes_commaList hne (ItemReading.readsItems h hclose hdepth) hc

end

section

variable {t : Nat} {ks : List TokenKind} {kss : List (List TokenKind)} {e : Expr} {es : List Expr}

theorem closes_of_starts (h : starts k = true) : closes k = false := by
  cases hcloses : closes k with
  | false => rfl
  | true =>
    unfold closes at hcloses
    split at hcloses <;> first | cases h | cases hcloses

theorem Reading.element (h : Reading t ks e) : ItemReading element Like ks e := by
  refine ⟨h.balanced, fun depth next rest c hdepth hnext hc => ?_⟩
  have hexpr := h.expr depth (.punct next :: rest) hdepth (closes_of_endsItem hnext) c hc
  obtain ⟨k, ls, rfl, hstart, -⟩ := h.head
  have hkind : c.kind = k := hc.kind_cons
  refine ⟨by rw [hkind]; exact closes_of_starts hstart, ?_⟩
  rw [Parser.element]
  refine .here (.not_eat ?_ hexpr)
  rw [hkind]
  rintro rfl
  cases hstart

theorem Reading.spread (h : Reading t ks e) (span : Span) :
    ItemReading Parser.element Like (.punct .ellipsis :: ks) (.spread span e) := by
  refine ⟨.cons (by simp) rfl rfl h.balanced, fun depth next rest c hdepth hnext hc => ?_⟩
  rw [List.length_cons] at hdepth
  refine ⟨by rw [hc.kind_cons]; rfl, ?_⟩
  rw [Parser.element]
  refine .here (.eat hc.kind_cons ?_)
  refine (h.expr depth (.punct next :: rest) (by omega) (closes_of_endsItem hnext) _
    (hc.advance (by simp))).bind fun e' c' he' hc' => ?_
  exact .spanFrom (.pure hc' (congrArg (Expr.spread .none) he'))

theorem ItemReading.arrayItem (h : ItemReading element Like ks e) : ItemReading arrayItem Like ks e := by
  refine ⟨h.balanced, fun depth next rest c hdepth hnext hc => ?_⟩
  obtain ⟨hkind, htakes⟩ := h.reads depth next rest c hdepth hnext hc
  refine ⟨hkind, ?_⟩
  have hcomma : (c.current.kind == .punct .comma) = false := by
    rw [beq_eq_false_iff_ne]
    intro heq
    change closes c.current.kind = false at hkind
    rw [heq] at hkind
    cases hkind
  rw [Parser.arrayItem]
  refine .current ?_
  rw [hcomma]
  exact htakes

theorem reading_array (t : Nat) (h : List.Forall₂ (ItemReading element Like) kss es) (span : Span) :
    Reading t (Tokens.enclosed .lbracket .rbracket (Tokens.separated kss)) (.array span es) := by
  refine .of_primary t rfl rfl (.enclosed rfl rfl rfl (ItemReading.balanced_separated h)) (.of_head rfl)
    fun depth rest hdepth _ c hc => ?_
  rw [List.length_cons, List.length_append] at hdepth
  rw [List.cons_append, List.append_assoc] at hc
  have hkind : c.current.kind = .punct .lbracket := hc.kind_cons
  have hitems : Takes (commaList (.punct .rbracket) (arrayItem (Grammar.parse depth))) c.advance rest _ :=
    ItemReading.takes_commaList (h.imp fun _ _ => ItemReading.arrayItem) rfl (by decide) (by omega)
      (hc.advance (by simp))
  rw [primary]
  refine .current ?_
  rw [hkind]
  refine .expect hc.kind_cons (hitems.bind fun es' c' hes' hc' => .spanFrom (.pure hc' ?_))
  have hmap : es'.map Bare.expr = es.map Bare.expr := map_eq_map_of_forall₂ hes'
  show Expr.array .none (Bare.exprs es') = Expr.array .none (Bare.exprs es)
  rw [Bare.exprs_eq_map, Bare.exprs_eq_map, hmap]

end

end MatchChain.Parser
