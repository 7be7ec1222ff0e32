import Mathlib.Data.List.Forall2
import MatchChain.Proofs.Syntax.Bare
import MatchChain.Proofs.Syntax.Formula

/-!
# The text of a formula spells its tokens

Whatever stands around a formula, its text is cut into the tokens `Tokens.expr` as long as no word goes
on right after it. The printer puts blanks around operators that could run together with what comes
next, so the only places to look at are signs, dots and the brackets, which nothing extends.
-/

set_option autoImplicit false

namespace MatchChain

namespace Punct

/-- Punctuation that stays what it is before any character. -/
def isFinal (p : Punct) : Bool :=
  p != .slash && p != .dot && all.all fun q => q == p || !p.text.toList.isPrefixOf q.text.toList

theorem ends_of_isFinal {p : Punct} (h : p.isFinal = true) (next : Option Char) : p.Ends next := by
  intro c _
  simp only [isFinal, Bool.and_eq_true, bne_iff_ne, ne_eq, List.all_eq_true, Bool.or_eq_true,
    beq_iff_eq, Bool.not_eq_true'] at h
  obtain ⟨⟨hslash, hdot⟩, hall⟩ := h
  have hlonger : ∀ q ∈ all, ¬p.text.toList ++ [c] <+: q.text.toList := by
    intro q hq hlong
    have hshort : p.text.toList <+: q.text.toList := (List.prefix_append _ _).trans hlong
    rcases hall q hq with heq | hno
    · rw [heq] at hlong
      have hlength := hlong.length_le
      rw [List.length_append] at hlength
      exact Nat.not_succ_le_self _ hlength
    · rw [List.isPrefixOf_iff_prefix.mpr hshort] at hno
      cases hno
  simpa [extendedBy, hslash, hdot] using hlonger

theorem ends_blank (p : Punct) : p.Ends (some ' ') := by
  intro c hc
  obtain rfl : ' ' = c := Option.some.inj hc
  cases p <;> decide

/-- No punctuation holds a character of words. -/
theorem not_isWordPart_of_mem {p : Punct} {c : Char} (h : c ∈ p.text.toList) : isWordPart c = false := by
  have hall : ∀ p ∈ all, p.text.toList.all (fun c => !isWordPart c) = true := by decide
  exact Bool.not_eq_true' _ ▸ List.all_eq_true.mp (hall p p.mem_all) c h

/-- No punctuation is extended by the start of a word. -/
theorem extendedBy_of_isWordStart (p : Punct) {c : Char} (h : isWordStart c = true) :
    p.extendedBy c = false := by
  have hlonger : ∀ q ∈ all, ¬p.text.toList ++ [c] <+: q.text.toList := by
    intro q _ hlong
    have hpart := not_isWordPart_of_mem (hlong.subset (by simp) : c ∈ q.text.toList)
    rw [isWordPart_of_isWordStart h] at hpart
    cases hpart
  have hne : ∀ d, isWordStart d = false → c ≠ d := by
    rintro d hd rfl
    rw [h] at hd
    cases hd
  simpa [extendedBy, not_isDigit_of_isWordStart h, hne '/' (by decide), hne '*' (by decide)]
    using hlonger

end Punct

/-- A text that spells these tokens wherever no word goes on after it. -/
abbrev Spelled (text : String) (kinds : List TokenKind) : Prop :=
  Token.Spells text.toList kinds EndsWord

theorem EndsWord.of_not_isWordPart {c : Char} (h : isWordPart c = false) : EndsWord (some c) := by
  intro d hd
  rwa [← Option.some.inj hd]

theorem EndsWord.none : EndsWord none := nofun

namespace Token.Spells

variable {s t : String} {c : Char} {ks kt : List TokenKind} {next next₁ : Option Char → Prop}

/-- A text after another one, by the character that it starts with. -/
theorem append_text (hs : Spells s.toList ks next₁) (ht : Spells t.toList kt next)
    (hhead : t.toList.head? = some c) (hc : next₁ (some c)) : Spells (s ++ t).toList (ks ++ kt) next := by
  rw [String.toList_append]
  refine hs.append ht fun rest _ => ?_
  rwa [List.head?_append, hhead]

/-- A text after one that anything may follow. -/
theorem append_free (hs : Spells s.toList ks fun _ => True) (ht : Spells t.toList kt next) :
    Spells (s ++ t).toList (ks ++ kt) next := by
  rw [String.toList_append]
  exact hs.append ht fun _ _ => trivial

theorem blank_append (ht : Spells t.toList kt next) : Spells (" " ++ t).toList kt next := by
  have hblank : Spells [' '] [] fun _ => True := blank
  rw [String.toList_append]
  exact hblank.append ht fun _ _ => trivial

theorem append_blank (hs : Spells s.toList ks next₁) (hnext : next₁ (some ' ')) :
    Spells (s ++ " ").toList ks next := by
  have hblank : Spells [' '] [] next := blank
  have h := hs.append hblank fun _ _ => hnext
  rw [List.append_nil] at h
  rwa [String.toList_append]

/-- Final punctuation before a text. -/
theorem punct_append {p : Punct} (hp : p.isFinal = true) (ht : Spells t.toList kt next) :
    Spells (p.text ++ t).toList (.punct p :: kt) next := by
  rw [String.toList_append]
  exact (punct p).append ht fun rest _ => Punct.ends_of_isFinal hp _

/-- Punctuation after a text. -/
theorem append_punct (hs : Spelled s ks) (p : Punct) :
    Spells (s ++ p.text).toList (ks ++ [.punct p]) p.Ends := by
  have hne : ∀ p ∈ Punct.all, p.text.toList ≠ [] := by decide
  obtain ⟨c, cs, htext⟩ := List.exists_cons_of_ne_nil (hne p p.mem_all)
  have hc : isWordPart c = false := Punct.not_isWordPart_of_mem (p := p) (by simp [htext])
  exact hs.append_text (punct p) (by rw [htext]; rfl) (EndsWord.of_not_isWordPart hc)

theorem append_punct_of_isFinal {q : Punct} (hs : Spelled s ks) (hq : q.isFinal = true) :
    Spells (s ++ q.text).toList (ks ++ [.punct q]) next :=
  (hs.append_punct q).mono fun c _ => Punct.ends_of_isFinal hq c

/-- A text between final punctuation. -/
theorem enclosed {p q : Punct} (hp : p.isFinal = true) (hq : q.isFinal = true) (hs : Spelled s ks) :
    Spells (p.text ++ s ++ q.text).toList (Tokens.enclosed p q ks) next := by
  rw [String.append_assoc]
  exact punct_append hp (hs.append_punct_of_isFinal hq)

/-- Two texts with an operator between them that stands alone. -/
theorem infixed {op : String} {kind : TokenKind} (hs : Spelled s ks)
    (hop : Spells op.toList [kind] next₁) (hnext : next₁ (some ' ')) (ht : Spells t.toList kt next) :
    Spells (s ++ " " ++ op ++ " " ++ t).toList (ks ++ kind :: kt) next := by
  have hs' : Spells (s ++ " ").toList ks fun _ => True :=
    hs.append_blank (EndsWord.of_not_isWordPart (by decide))
  have hop' : Spells (op ++ " ").toList [kind] fun _ => True := hop.append_blank hnext
  have h := hs'.append_free (hop'.append_free ht)
  simpa only [String.append_assoc, List.cons_append, List.nil_append] using h

/-- A word after punctuation after a text. -/
theorem append_word {w : String} (hs : Spelled s ks) (p : Punct) (hw : IsWord w) :
    Spelled (s ++ p.text ++ w) (ks ++ [.punct p, Lexeme.wordKind w]) := by
  have hword := word hw
  obtain ⟨c, cs, htext, hc, -⟩ := hw
  have h := (hs.append_punct p).append_text hword (by rw [htext]; rfl : w.toList.head? = some c)
    fun d hd => Option.some.inj hd ▸ p.extendedBy_of_isWordStart hc
  rwa [List.append_assoc] at h

/-- A text in brackets after another text, which may be linked by a question mark and a dot. -/
theorem append_enclosed {p q : Punct} (hs : Spelled s ks) (optional : Bool) (hp : p.isFinal = true)
    (hq : q.isFinal = true) (ht : Spelled t kt) :
    Spells (s ++ (if optional then Punct.questionDot.text ++ p.text else p.text) ++ t ++ q.text).toList
      (ks ++ ((if optional then [.punct .questionDot] else []) ++ Tokens.enclosed p q kt)) next := by
  cases optional with
  | false =>
    have hopen : Spells (s ++ p.text).toList (ks ++ [.punct p]) fun _ => True :=
      hs.append_punct_of_isFinal hp
    have h : Spells (s ++ p.text ++ (t ++ q.text)).toList _ next :=
      hopen.append_free (ht.append_punct_of_isFinal hq)
    simpa only [Bool.false_eq_true, if_false, String.append_assoc, Tokens.enclosed, List.append_assoc,
      List.cons_append, List.nil_append] using h
  | true =>
    have henclosed : Spells (p.text ++ t ++ q.text).toList (Tokens.enclosed p q kt) next :=
      ht.enclosed hp hq
    have hdot : Spells (s ++ Punct.questionDot.text).toList (ks ++ [.punct .questionDot]) fun _ => True :=
      hs.append_punct_of_isFinal (by decide)
    have h := hdot.append_free henclosed
    rw [List.append_assoc] at h
    simpa only [if_true, String.append_assoc] using h

end Token.Spells

/-! ## Operators -/

/-- The text of a token that has one spelling. -/
def TokenKind.spelling? : TokenKind → Option String
  | .punct p => some p.text
  | .keyword k => some k.text
  | _ => none

theorem TokenKind.spells_of_spelling? {kind : TokenKind} {text : String}
    (h : kind.spelling? = some text) : Token.Spells text.toList [kind] (· = some ' ') := by
  cases kind with
  | punct p =>
    obtain rfl : p.text = text := Option.some.inj h
    refine (Token.Spells.punct p).mono ?_
    rintro _ rfl
    exact p.ends_blank
  | keyword k =>
    obtain rfl : k.text = text := Option.some.inj h
    refine (Token.Spells.keyword k).mono ?_
    rintro _ rfl
    exact EndsWord.of_not_isWordPart (by decide)
  | _ => cases h

theorem BinaryOp.spelling_token (op : BinaryOp) : op.token.spelling? = some op.text := by
  cases op <;> rfl

theorem AssignOp.spelling_token (op : AssignOp) : op.token.spelling? = some op.text := by
  cases op <;> rfl

/-- A character that an operand starts with and that runs together with no sign. -/
def StartsOperand (c : Char) : Prop := isWordStart c = true ∨ c ∈ ['\'', '(', '[', '{']

namespace UnaryOp

/-- Whether the operator would be read as something else if this character came right after it. -/
def extendedBy (op : UnaryOp) (c : Char) : Bool :=
  match op.token with
  | .punct p => p.extendedBy c
  | _ => isWordPart c

theorem spells_token (op : UnaryOp) :
    Token.Spells op.text.toList [op.token] fun next => ∀ c, next = some c → op.extendedBy c = false := by
  cases op with
  | not => exact Token.Spells.punct .bang
  | neg => exact Token.Spells.punct .minus
  | plus => exact Token.Spells.punct .plus
  | bitNot => exact Token.Spells.punct .tilde
  | typeOf => exact Token.Spells.keyword .«typeof»
  | void => exact Token.Spells.keyword .«void»
  | delete => exact Token.Spells.keyword .«delete»
  | await => exact Token.Spells.keyword .«await»

theorem extendedBy_blank (op : UnaryOp) : op.extendedBy ' ' = false := by cases op <;> decide

theorem extendedBy_of_startsOperand {op : UnaryOp} {c : Char} (hop : op.isWord = false)
    (hc : StartsOperand c) : op.extendedBy c = false := by
  rcases hc with hword | hmem
  · cases op with
    | not | neg | plus | bitNot => exact Punct.extendedBy_of_isWordStart _ hword
    | _ => cases hop
  · have hall : ['\'', '(', '[', '{'].all (fun c => !op.extendedBy c) = true := by
      revert hop
      cases op <;> decide
    exact Bool.not_eq_true' _ ▸ List.all_eq_true.mp hall c hmem

/-- Signs run together only where the printer sets them apart. -/
theorem extendedBy_head {op inner : UnaryOp} (hop : op.isWord = false)
    (hneg : (op == .neg && some inner == some .neg) = false)
    (hplus : (op == .plus && some inner == some .plus) = false) :
    ∀ c ∈ inner.text.toList.head?, op.extendedBy c = false := by
  have hall : inner.text.toList.head?.all (fun c => !op.extendedBy c) = true := by
    revert hop hneg hplus
    cases op <;> cases inner <;> decide
  intro c hc
  rw [hc] at hall
  exact Bool.not_eq_true' _ ▸ hall

end UnaryOp

/-! ## The first character of a formula -/

namespace Print

theorem head?_append {s t : String} {c : Char} (h : s.toList.head? = some c) :
    (s ++ t).toList.head? = some c := by
  rw [String.toList_append, List.head?_append, h]
  rfl

theorem head?_parenthesize {s : String} {wrap : Bool} {P : Char → Prop} (hparen : P '(')
    (h : wrap = false → ∃ c, s.toList.head? = some c ∧ P c) :
    ∃ c, (parenthesize wrap s).toList.head? = some c ∧ P c := by
  cases wrap with
  | false => exact h rfl
  | true =>
    refine ⟨'(', ?_, hparen⟩
    rw [parenthesize, if_pos rfl, String.append_assoc]
    exact head?_append rfl

/-- A text that starts with an operand, wrapped or not. -/
theorem head?_parenthesize_append {s : String} {wrap : Bool} (t : String)
    (h : wrap = false → ∃ c, s.toList.head? = some c ∧ StartsOperand c) :
    ∃ c, (parenthesize wrap s ++ t).toList.head? = some c ∧ StartsOperand c := by
  obtain ⟨c, hc, hstart⟩ := head?_parenthesize (.inr (by decide)) h
  exact ⟨c, head?_append hc, hstart⟩

/-- An operand that no operator is outermost in starts with none. -/
theorem head?_of_postfixed (level : Nat) {spread : Bool} : ∀ {e : Expr}, Written.expr spread e →
    Tightness.postfixed ≤ e.tightness →
      ∃ c, (expr level e).toList.head? = some c ∧ StartsOperand c
  | .ident _ name, h, _ => by
    obtain ⟨c, cs, htext, hc, -⟩ := h.word
    exact ⟨c, by rw [expr, htext]; rfl, .inl hc⟩
  | .str _ text, _, _ => ⟨'\'', by rw [expr, Text.quote, String.toList_ofList]; rfl, .inr (by decide)⟩
  | .bool _ value, _, _ => by
    rw [expr]
    cases value with
    | false => exact ⟨'f', by decide, .inl (by decide)⟩
    | true => exact ⟨'t', by decide, .inl (by decide)⟩
  | .null _, _, _ => ⟨'n', by rw [expr]; decide, .inl (by decide)⟩
  | .thisRef _, _, _ => ⟨'t', by rw [expr]; decide, .inl (by decide)⟩
  | .array _ items, _, _ => by
    refine ⟨'[', ?_, .inr (by decide)⟩
    rw [expr, String.append_assoc]
    exact head?_append rfl
  | .object _ ps, _, _ => by
    refine ⟨'{', ?_, .inr (by decide)⟩
    rw [expr, braced]
    split
    · rfl
    · rw [String.append_assoc]
      exact head?_append rfl
  | .member _ object property optional, h, _ => by
    rw [expr, String.append_assoc]
    refine head?_parenthesize_append _ fun hwrap => ?_
    simp only [Bool.or_eq_false_iff, decide_eq_false_iff_not, Nat.not_lt] at hwrap
    exact head?_of_postfixed level h.1 hwrap.1
  | .index _ object key optional, h, _ => by
    rw [expr, String.append_assoc, String.append_assoc]
    refine head?_parenthesize_append _ fun hwrap => ?_
    simp only [Bool.or_eq_false_iff, decide_eq_false_iff_not, Nat.not_lt] at hwrap
    exact head?_of_postfixed level h.1 hwrap.1
  | .call _ callee args optional, h, _ => by
    rw [expr, String.append_assoc, String.append_assoc]
    refine head?_parenthesize_append _ fun hwrap => ?_
    simp only [Bool.or_eq_false_iff, decide_eq_false_iff_not, Nat.not_lt] at hwrap
    exact head?_of_postfixed level h.1 hwrap.2
  | .func _ ⟨_, kind, _, _, _, _, _⟩, h, htight => by
    rw [Written.expr, Written.func] at h
    obtain ⟨rfl, -⟩ := h
    exact absurd htight (by simp [Expr.tightness, Tightness.postfixed, Tightness.assignment])
  | .binary _ op left right, _, htight => by
    have hle : op.precedence ≤ 14 := by cases op <;> decide
    exact absurd (Nat.le_trans htight hle) (by decide)

/-- The operand of a sign starts with nothing that runs together with it. -/
theorem head?_operand (level : Nat) {op : UnaryOp} {operand : Expr} (h : Written.expr false operand)
    (hop : op.isWord = false) (hapart : operand.signsCollide op = false) :
    ∃ c, (place Tightness.unary operand (expr level operand)).toList.head? = some c ∧
      op.extendedBy c = false := by
  have hparen : op.extendedBy '(' = false := UnaryOp.extendedBy_of_startsOperand hop (.inr (by decide))
  refine head?_parenthesize hparen fun hwrap => ?_
  rw [decide_eq_false_iff_not, Nat.not_lt] at hwrap
  by_cases hunary : ∃ span inner x, operand = .unary span inner x
  · obtain ⟨span, inner, x, rfl⟩ := hunary
    rw [Expr.signsCollide, Bool.or_eq_false_iff] at hapart
    have hinner := UnaryOp.extendedBy_head hop hapart.1 hapart.2
    have hne : ∃ c cs, inner.text.toList = c :: cs := by cases inner <;> exact ⟨_, _, rfl⟩
    obtain ⟨c, cs, htext⟩ := hne
    refine ⟨c, ?_, hinner c (by rw [htext]; rfl)⟩
    rw [expr, String.append_assoc]
    exact head?_append (by rw [htext]; rfl)
  · have htight := Expr.postfixed_le_of_unary_le h (fun span inner x heq => hunary ⟨span, inner, x, heq⟩) hwrap
    obtain ⟨c, hc, hstart⟩ := head?_of_postfixed level h htight
    exact ⟨c, hc, UnaryOp.extendedBy_of_startsOperand hop hstart⟩

/-! ## Lists -/

theorem bindingElems_eq_map (level : Nat) (es : List BindingElem) : bindingElems level es = es.map (bindingElem level) :=
  eq_map_of_rec rfl (fun _ _ => rfl) es

theorem bindingProps_eq_map (level : Nat) (ps : List BindingProp) : bindingProps level ps = ps.map (bindingProp level) :=
  eq_map_of_rec rfl (fun _ _ => rfl) ps

theorem toList_commaSeparated (s : String) (ts : List String) :
    (commaSeparated (s :: ts)).toList = s.toList ++ ts.flatMap fun t => ',' :: ' ' :: t.toList := by
  rw [commaSeparated, String.toList_intercalate, List.map_cons]
  induction ts generalizing s with
  | nil => simp [List.intercalate]
  | cons t ts ih =>
    rw [List.flatMap_cons, List.cons_append, List.cons_append, ← ih t]
    simp [List.intercalate]

/-- What comes after a text in a list ends its last word. -/
theorem endsWord_commas (ts : List String) {rest : List Char} (h : EndsWord rest.head?) :
    EndsWord ((ts.flatMap fun t => ',' :: ' ' :: t.toList) ++ rest).head? := by
  cases ts with
  | nil => exact h
  | cons t ts => exact EndsWord.of_not_isWordPart (c := ',') (by decide)

theorem spells_commas {ts : List String} {ks : List (List TokenKind)}
    (h : List.Forall₂ Spelled ts ks) :
    Token.Spells (ts.flatMap fun t => ',' :: ' ' :: t.toList) (ks.flatMap (.punct .comma :: ·))
      EndsWord := by
  induction h with
  | nil => exact .nil
  | @cons t k ts _ ht _ ih =>
    have hcomma : Spelled (Punct.comma.text ++ (" " ++ t)) (.punct .comma :: k) :=
      .punct_append (by decide) ht.blank_append
    have htext : (Punct.comma.text ++ (" " ++ t)).toList = ',' :: ' ' :: t.toList := by
      rw [String.toList_append, String.toList_append]
      rfl
    rw [Spelled, htext] at hcomma
    exact hcomma.append ih fun rest hrest => endsWord_commas ts hrest

theorem spelled_commaSeparated {texts : List String} {kinds : List (List TokenKind)}
    (h : List.Forall₂ Spelled texts kinds) : Spelled (commaSeparated texts) (Tokens.separated kinds) := by
  cases h with
  | nil => exact .nil
  | @cons s _ ts _ hs hts =>
    rw [Spelled, toList_commaSeparated]
    exact hs.append (spells_commas hts) fun rest hrest => endsWord_commas ts hrest

theorem spelled_parenthesize {s : String} {ks : List TokenKind} (wrap : Bool) (h : Spelled s ks) :
    Spelled (parenthesize wrap s) (Tokens.wrap wrap ks) := by
  cases wrap with
  | false => exact h
  | true => exact h.enclosed (p := .lparen) (q := .rparen) (by decide) (by decide)

theorem spelled_place {s : String} {ks : List TokenKind} (tightness : Nat) (e : Expr) (h : Spelled s ks) :
    Spelled (place tightness e s) (Tokens.place tightness e ks) :=
  spelled_parenthesize _ h

theorem spelled_braced {texts : List String} {kinds : List (List TokenKind)}
    (h : List.Forall₂ Spelled texts kinds) :
    Spelled (braced texts) (Tokens.enclosed .lbrace .rbrace (Tokens.separated kinds)) := by
  cases h with
  | nil =>
    have hnil : Spelled "" [] := .nil
    exact hnil.enclosed (p := .lbrace) (q := .rbrace) (by decide) (by decide)
  | @cons s _ ts _ hs hts =>
    have hlist := spelled_commaSeparated (.cons hs hts)
    have hblanks : Spelled (" " ++ commaSeparated (s :: ts) ++ " ") _ :=
      hlist.blank_append.append_blank (EndsWord.of_not_isWordPart (by decide))
    have htext : braced (s :: ts)
        = Punct.lbrace.text ++ (" " ++ commaSeparated (s :: ts) ++ " ") ++ Punct.rbrace.text := by
      have hopen : "\x7b " = Punct.lbrace.text ++ " " := rfl
      have hclose : " \x7d" = " " ++ Punct.rbrace.text := rfl
      rw [braced, hopen, hclose]
      simp only [List.isEmpty_cons, Bool.false_eq_true, if_false, String.append_assoc]
    rw [htext]
    exact hblanks.enclosed (by decide) (by decide)

/-- A sign is set apart from an operand that starts with the same one. -/
theorem spelled_unary {level : Nat} (op : UnaryOp) {operand : Expr} {kinds : List TokenKind}
    (hwritten : Written.expr false operand)
    (h : Spelled (place Tightness.unary operand (expr level operand)) kinds) :
    Spelled (op.text ++ (if op.isWord || operand.signsCollide op then " " else "")
      ++ place Tightness.unary operand (expr level operand)) (op.token :: kinds) := by
  split
  case isTrue =>
    have hop : Token.Spells (op.text ++ " ").toList [op.token] fun _ => True :=
      op.spells_token.append_blank fun c hc => Option.some.inj hc ▸ op.extendedBy_blank
    exact hop.append_free h
  case isFalse hblank =>
    simp only [Bool.or_eq_true, not_or, Bool.not_eq_true] at hblank
    obtain ⟨c, hhead, hc⟩ := head?_operand level hwritten hblank.1 hblank.2
    rw [String.append_empty]
    exact op.spells_token.append_text h hhead fun d hd => Option.some.inj hd ▸ hc

/-! ## Formulas -/

mutual

theorem spelled_expr (level : Nat) {spread : Bool} : ∀ {e : Expr}, Written.expr spread e →
    Spelled (expr level e) (Tokens.expr e)
  | .ident _ name, h => by
    rw [expr, Tokens.expr]
    exact .name h
  | .str _ text, _ => by
    rw [expr, Tokens.expr]
    exact .quoted text
  | .bool _ value, _ => by
    rw [expr, Tokens.expr]
    cases value with
    | false => exact .keyword .«false»
    | true => exact .keyword .«true»
  | .null _, _ => by
    rw [expr, Tokens.expr]
    exact .keyword .«null»
  | .thisRef _, _ => by
    rw [expr, Tokens.expr]
    exact .keyword .«this»
  | .array _ items, h => by
    rw [expr, Tokens.expr]
    exact (spelled_commaSeparated (spelled_items level h)).enclosed (p := .lbracket) (q := .rbracket)
      (by decide) (by decide)
  | .object _ ps, h => by
    rw [expr, Tokens.expr]
    exact spelled_braced (spelled_props level h)
  | .func _ fn, h => by
    rw [expr, Tokens.expr]
    exact spelled_func level h
  | .unary _ op operand, h => by
    rw [expr, Tokens.expr]
    exact spelled_unary op h (spelled_place _ _ (spelled_expr level h))
  | .binary _ op left right, h => by
    rw [expr, Tokens.expr]
    exact (spelled_parenthesize _ (spelled_expr level h.1)).infixed
      (TokenKind.spells_of_spelling? op.spelling_token) rfl
      (spelled_parenthesize _ (spelled_expr level h.2))
  | .conditional _ cond thenExpr elseExpr, h => by
    rw [expr, Tokens.expr]
    have hbranches := (spelled_place Tightness.assignment thenExpr (spelled_expr level h.2.1)).infixed
      (.punct .colon) (Punct.ends_blank _)
      (spelled_place Tightness.assignment elseExpr (spelled_expr level h.2.2))
    have hwhole := (spelled_place (Tightness.conditional + 1) cond (spelled_expr level h.1)).infixed
      (.punct .question) (Punct.ends_blank _) hbranches
    have hquestion : " ? " = " " ++ (Punct.question.text ++ " ") := rfl
    have hcolon : " : " = " " ++ (Punct.colon.text ++ " ") := rfl
    rw [hquestion, hcolon]
    simpa only [String.append_assoc] using hwhole
  | .assign _ op target value, h => by
    rw [expr, Tokens.expr]
    exact (spelled_place _ _ (spelled_expr level h.2.1)).infixed
      (TokenKind.spells_of_spelling? op.spelling_token) rfl
      (spelled_place _ _ (spelled_expr level h.2.2))
  | .member _ object property optional, h => by
    rw [expr, Tokens.expr]
    have hobject := spelled_parenthesize (object.tightness < Tightness.postfixed || object.isNum)
      (spelled_expr level h.1)
    cases optional with
    | false => exact hobject.append_word .dot h.2
    | true => exact hobject.append_word .questionDot h.2
  | .index _ object key optional, h => by
    rw [expr, Tokens.expr]
    exact (spelled_parenthesize _ (spelled_expr level h.1)).append_enclosed (p := .lbracket)
      (q := .rbracket) optional (by decide) (by decide) (spelled_expr level h.2)
  | .call _ callee args optional, h => by
    rw [expr, Tokens.expr]
    exact (spelled_parenthesize _ (spelled_expr level h.1)).append_enclosed (p := .lparen)
      (q := .rparen) optional (by decide) (by decide) (spelled_commaSeparated (spelled_items level h.2))
  | .spread _ operand, h => by
    rw [expr, Tokens.expr]
    exact .punct_append (p := .ellipsis) (by decide) (spelled_place _ _ (spelled_expr level h.2))

theorem spelled_items (level : Nat) : ∀ {es : List Expr}, Written.elements es →
    List.Forall₂ Spelled (items level es) (Tokens.items es)
  | [], _ => by
    rw [items, Tokens.items]
    exact .nil
  | e :: es, h => by
    rw [items, Tokens.items]
    exact .cons (spelled_place _ _ (spelled_expr level h.1)) (spelled_items level h.2)

theorem spelled_props (level : Nat) : ∀ {ps : List Property}, Written.props ps →
    List.Forall₂ Spelled (props level ps) (Tokens.props ps)
  | [], _ => by
    rw [props, Tokens.props]
    exact .nil
  | .init _ key value shorthand :: ps, h => by
    rw [Written.props, Written.prop] at h
    rw [props, Tokens.props, prop, Tokens.prop]
    refine .cons ?_ (spelled_props level h.2)
    have hvalue := spelled_place Tightness.assignment value (spelled_expr level h.1.2.1)
    split
    · rwa [String.empty_append]
    · have hcolon : Token.Spells (propKey level key ++ Punct.colon.text).toList _ fun _ => True :=
        (spelled_propKey level h.1.1).append_punct_of_isFinal (by decide)
      have hblank : ": " = Punct.colon.text ++ " " := rfl
      rw [hblank, ← String.append_assoc]
      exact (hcolon.append_blank trivial).append_free hvalue
  | .spread _ value :: ps, h => by
    rw [Written.props, Written.prop] at h
    rw [props, Tokens.props, prop, Tokens.prop]
    exact .cons (.punct_append (p := .ellipsis) (by decide)
      (spelled_place _ _ (spelled_expr level h.1))) (spelled_props level h.2)

theorem spelled_propKey (level : Nat) : ∀ {key : PropKey}, Written.propKey key →
    Spelled (propKey level key) (Tokens.propKey key)
  | .ident name, h => by
    rw [propKey, Tokens.propKey]
    exact .word h
  | .str text, _ => by
    rw [propKey, Tokens.propKey]
    exact .quoted text
  | .computed e, h => by
    rw [propKey, Tokens.propKey]
    exact (spelled_place _ _ (spelled_expr level h)).enclosed (p := .lbracket) (q := .rbracket)
      (by decide) (by decide)

theorem spelled_func (level : Nat) : ∀ {fn : Func}, Written.func fn →
    Spelled (func level fn) (Tokens.func fn)
  | ⟨_, kind, name, ps, body, isAsync, _⟩, h => by
    obtain ⟨rfl, -, -, hparams, hbody⟩ := h
    have hlist : Spelled ("(" ++ commaSeparated (params level ps) ++ ")")
        (Tokens.enclosed .lparen .rparen (Tokens.separated (Tokens.params ps))) :=
      (spelled_commaSeparated (spelled_params level hparams)).enclosed (p := .lparen) (q := .rparen)
        (by decide) (by decide)
    have hfunc := hlist.infixed (.punct .arrow) (Punct.ends_blank _) (spelled_arrowBody level hbody)
    have harrow : " => " = " " ++ (Punct.arrow.text ++ " ") := rfl
    rw [func, Tokens.func, harrow]
    simp only [String.append_assoc] at hfunc ⊢
    cases isAsync with
    | false => rwa [if_neg (by decide), if_neg (by decide), String.empty_append]
    | true =>
      have hname : IsName "async" :=
        ⟨⟨'a', "sync".toList, rfl, by decide, List.all_eq_true.mp (by decide)⟩, by decide⟩
      have hasync : Token.Spells ("async" ++ " ").toList [.ident "async"] fun _ => True :=
        (Token.Spells.name hname).append_blank (EndsWord.of_not_isWordPart (by decide))
      exact hasync.append_free hfunc

theorem spelled_arrowBody (level : Nat) : ∀ {body : FuncBody}, Written.funcBody body →
    Spelled (arrowBody level body) (Tokens.arrowBody body)
  | .expr e, h => by
    rw [arrowBody, Tokens.arrowBody]
    exact spelled_parenthesize _ (spelled_expr level h)

theorem spelled_params (level : Nat) : ∀ {ps : List Param}, Written.params ps →
    List.Forall₂ Spelled (params level ps) (Tokens.params ps)
  | [], _ => by
    rw [params, Tokens.params]
    exact .nil
  | ⟨_, target, default, rest⟩ :: ps, h => by
    rw [Written.params, Written.param] at h
    obtain ⟨⟨⟨span, name, rfl, hname⟩, hdefault, -⟩, -, hps⟩ := h
    rw [params, Tokens.params, param, Tokens.param, binding]
    refine .cons ?_ (spelled_params level hps)
    have hitem := spelled_default level (Token.Spells.name hname) hdefault
    cases rest with
    | false =>
      rw [if_neg (by decide), if_neg (by decide), String.empty_append]
      exact hitem
    | true =>
      rw [String.append_assoc]
      exact .punct_append (p := .ellipsis) (by decide) hitem

theorem spelled_default (level : Nat) {s : String} {ks : List TokenKind} (hs : Spelled s ks) :
    ∀ {default : Option Expr}, Written.default? default →
      Spelled (s ++ defaultText level default) (ks ++ Tokens.default? default)
  | none, _ => by
    rw [defaultText, Tokens.default?, String.append_empty, List.append_nil]
    exact hs
  | some e, h => by
    have hvalue := spelled_place Tightness.assignment e (spelled_expr level h)
    have hequals : " = " = " " ++ (Punct.eq.text ++ " ") := rfl
    rw [defaultText, Tokens.default?, hequals]
    simpa only [String.append_assoc] using hs.infixed (.punct .eq) (Punct.ends_blank _) hvalue

end

end Print

end MatchChain
