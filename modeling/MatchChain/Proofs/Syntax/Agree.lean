import MatchChain.Proofs.Token.Travel
import MatchChain.Syntax.Parser

/-!
# Parsers that agree

The productions of the grammar are written over a parser for every symbol, and the grammar is tied to a
depth. `Agree p q c Q` compares two such parsers at one cursor: both return the same, which satisfies
`Q`, or both fail with the same error, and it is not that the depth is used up. There is a rule for each
small parser, to be read from the front: what remains to be shown is about the rest of the parser, at
the cursor that it goes on from.
-/

set_option autoImplicit false

namespace MatchChain

variable {k : TokenKind}

theorem TokenKind.punct_ne_eof (p : Punct) : TokenKind.punct p ≠ .eof := by rintro ⟨⟩

theorem TokenKind.keyword_ne_eof (k : Keyword) : TokenKind.keyword k ≠ .eof := by rintro ⟨⟩

theorem TokenKind.ident_ne_eof (name : String) : TokenKind.ident name ≠ .eof := by rintro ⟨⟩

theorem TokenKind.str_ne_eof (text : String) : TokenKind.str text ≠ .eof := by rintro ⟨⟩

namespace Parser

variable {α β : Type}

theorem ne_eof {c : Cursor} (h : c.kind = k) (hk : k ≠ .eof) : c.kind ≠ .eof := by
  rw [h]
  exact hk

/-- From `c` both parsers return the same, which satisfies `Q`, or both fail for the same reason, which
    is not the depth. -/
inductive Agree (p q : Parser α) (c : Cursor) (Q : α → Cursor → Prop) : Prop
  | ok {a : α} {c' : Cursor} : p c = .ok (a, c') → q c = .ok (a, c') → Q a c' → Agree p q c Q
  | error {e : SyntaxError} : p c = .error e → q c = .error e → (∀ span, e ≠ .tooDeep span) → Agree p q c Q

namespace Agree

variable {p q : Parser α} {f g : α → Parser β} {c : Cursor} {Q Q' : α → Cursor → Prop} {R : β → Cursor → Prop}

theorem imp (h : Agree p q c Q) (hQ : ∀ a c', Q a c' → Q' a c') : Agree p q c Q' := by
  cases h with
  | ok hp hq ha => exact .ok hp hq (hQ _ _ ha)
  | error hp hq he => exact .error hp hq he

theorem of_ok (h : Agree p q c Q) {a : α} {c' : Cursor} (hp : p c = .ok (a, c')) : Q a c' := by
  cases h with
  | ok hp' _ ha =>
    cases hp.symm.trans hp'
    exact ha
  | error hp' => cases hp.symm.trans hp'

/-- What is returned is what the first parser returns. -/
theorem withRun (h : Agree p q c Q) : Agree p q c fun a c' => p c = .ok (a, c') ∧ Q a c' := by
  cases h with
  | ok hp hq ha => exact .ok hp hq ⟨hp, ha⟩
  | error hp hq he => exact .error hp hq he

theorem bind (h : Agree p q c Q) (hf : ∀ a c', Q a c' → Agree (f a) (g a) c' R) :
    Agree (p >>= f) (q >>= g) c R := by
  have hbind {p : Parser α} {f : α → Parser β} : (p >>= f) c = p c >>= fun r => f r.1 r.2 := rfl
  cases h with
  | ok hp hq ha =>
    cases hf _ _ ha with
    | ok hp' hq' hb => exact .ok (by rw [hbind, hp]; exact hp') (by rw [hbind, hq]; exact hq') hb
    | error hp' hq' he => exact .error (by rw [hbind, hp]; exact hp') (by rw [hbind, hq]; exact hq') he
  | error hp hq he => exact .error (by rw [hbind, hp]; rfl) (by rw [hbind, hq]; rfl) he

theorem pure {a : α} (h : Q a c) : Agree (Pure.pure a) (Pure.pure a) c Q := .ok rfl rfl h

theorem throw {e : SyntaxError} (he : ∀ span, e ≠ .tooDeep span) : Agree (throw e) (MonadExcept.throw e) c Q :=
  .error rfl rfl he

theorem throw_bind {e : SyntaxError} (he : ∀ span, e ≠ .tooDeep span) :
    Agree (MonadExcept.throw e >>= f) (MonadExcept.throw e >>= g) c R :=
  .error rfl rfl he

theorem ite {b : Prop} [Decidable b] {p' q' : Parser α} (hthen : b → Agree p q c Q) (helse : ¬ b → Agree p' q' c Q) :
    Agree (if b then p else p') (if b then q else q') c Q := by
  split
  · exact hthen ‹_›
  · exact helse ‹_›

/-- Goes on after a parser that returns. -/
theorem after {p : Parser α} {a : α} {c' : Cursor} (hp : p c = .ok (a, c')) (h : Agree (f a) (g a) c' R) :
    Agree (p >>= f) (p >>= g) c R := by
  have hreturns : Agree p p c fun b c₁ => b = a ∧ c₁ = c' := .ok hp hp ⟨rfl, rfl⟩
  refine hreturns.bind ?_
  rintro _ _ ⟨rfl, rfl⟩
  exact h

end Agree

/-! ## Small parsers -/

namespace Agree

variable {c : Cursor} {R : β → Cursor → Prop}

theorem get {f g : Cursor → Parser β} (h : Agree (f c) (g c) c R) :
    Agree (MonadState.get >>= f) (MonadState.get >>= g) c R := after rfl h

theorem current {f g : Token → Parser β} (h : Agree (f c.current) (g c.current) c R) :
    Agree (current >>= f) (current >>= g) c R := after rfl h

theorem kind {f g : TokenKind → Parser β} (h : Agree (f c.kind) (g c.kind) c R) :
    Agree (kind >>= f) (kind >>= g) c R := after rfl h

theorem here {f g : Span → Parser β} (h : Agree (f c.current.span) (g c.current.span) c R) :
    Agree (here >>= f) (here >>= g) c R := after rfl h

theorem spanFrom {start : Span} {f g : Span → Parser β}
    (h : Agree (f (start.upTo c.previousSpan)) (g (start.upTo c.previousSpan)) c R) :
    Agree (spanFrom start >>= f) (spanFrom start >>= g) c R := after rfl h

theorem advance {f g : PUnit → Parser β} (h : Agree (f ⟨⟩) (g ⟨⟩) c.advance R) :
    Agree (modify Cursor.advance >>= f) (modify Cursor.advance >>= g) c R := after rfl h

theorem set {c' : Cursor} {f g : PUnit → Parser β} (h : Agree (f ⟨⟩) (g ⟨⟩) c' R) :
    Agree (MonadStateOf.set c' >>= f) (MonadStateOf.set c' >>= g) c R := after rfl h

theorem check {f g : Bool → Parser β} (h : Agree (f (c.check k)) (g (c.check k)) c R) :
    Agree (check k >>= f) (check k >>= g) c R := after rfl h

theorem eat {f g : Bool → Parser β} (hyes : c.kind = k → Agree (f true) (g true) c.advance R)
    (hno : c.kind ≠ k → Agree (f false) (g false) c R) : Agree (eat k >>= f) (eat k >>= g) c R := by
  by_cases hk : c.kind = k
  · have hcheck : c.check k = true := beq_iff_eq.mpr hk
    have heat : Parser.eat k c = .ok (true, c.advance) := by
      change (if c.check k = true then _ else _ : Parser Bool) c = _
      rw [if_pos hcheck]
      rfl
    exact after heat (hyes hk)
  · have hcheck : ¬ c.check k = true := fun h => hk (beq_iff_eq.mp h)
    have heat : Parser.eat k c = .ok (false, c) := by
      change (if c.check k = true then _ else _ : Parser Bool) c = _
      rw [if_neg hcheck]
      rfl
    exact after heat (hno hk)

/-- What taking a token if it is there comes to. -/
inductive Eaten (k : TokenKind) (c : Cursor) : Bool → Cursor → Prop
  | yes : c.kind = k → Eaten k c true c.advance
  | no : c.kind ≠ k → Eaten k c false c

theorem eating {f g : Bool → Parser β} (h : ∀ b c', Eaten k c b c' → Agree (f b) (g b) c' R) :
    Agree (Parser.eat k >>= f) (Parser.eat k >>= g) c R :=
  eat (fun hk => h _ _ (.yes hk)) fun hk => h _ _ (.no hk)

theorem expect {f g : Span → Parser β}
    (h : c.kind = k → Agree (f c.current.span) (g c.current.span) c.advance R) :
    Agree (expect k >>= f) (expect k >>= g) c R := by
  have hexpect : Agree (Parser.expect k) (Parser.expect k) c fun span c' =>
      c.kind = k ∧ span = c.current.span ∧ c' = c.advance := by
    refine current (ite (fun hk => ?_) fun _ => throw (by rintro _ ⟨⟩))
    exact advance (pure ⟨beq_iff_eq.mp hk, rfl, rfl⟩)
  refine hexpect.bind ?_
  rintro _ _ ⟨hk, rfl, rfl⟩
  exact h hk

theorem name {f g : String × Span → Parser β}
    (h : ∀ name, c.kind = .ident name → Agree (f (name, c.current.span)) (g (name, c.current.span)) c.advance R) :
    Agree (name >>= f) (name >>= g) c R := by
  have hname : Agree Parser.name Parser.name c fun r c' =>
      c.kind = .ident r.1 ∧ r.2 = c.current.span ∧ c' = c.advance := by
    refine current ?_
    split
    next name hk => exact advance (pure ⟨hk, rfl, rfl⟩)
    next => exact throw (by rintro _ ⟨⟩)
  refine hname.bind ?_
  rintro ⟨name, span⟩ _ ⟨hk, rfl, rfl⟩
  exact h name hk

theorem propertyName {L : Locator} {Q : String → Cursor → Prop} (hsound : c.Sound L)
    (h : ∀ name, IsWord name → c.kind ≠ .eof → Q name c.advance) : Agree propertyName propertyName c Q := by
  refine kind ?_
  split
  next word hk => exact advance (pure (h _ word.isWord_text (ne_eof hk (TokenKind.keyword_ne_eof word))))
  next => exact name fun name hk => pure (h _ (hsound.isName hk).word (ne_eof hk (TokenKind.ident_ne_eof name)))

theorem propertyName_bind {L : Locator} {f g : String → Parser β} (hsound : c.Sound L)
    (h : ∀ name, IsWord name → c.kind ≠ .eof → Agree (f name) (g name) c.advance R) :
    Agree (Parser.propertyName >>= f) (Parser.propertyName >>= g) c R := by
  have hname : Agree Parser.propertyName Parser.propertyName c fun name c' =>
      IsWord name ∧ c.kind ≠ .eof ∧ c' = c.advance := propertyName hsound fun _ hword hk => ⟨hword, hk, rfl⟩
  refine hname.bind ?_
  rintro name _ ⟨hword, hk, rfl⟩
  exact h name hword hk

theorem atWord {word : String} {f g : Bool → Parser β}
    (h : Agree (f (c.kind == .ident word)) (g (c.kind == .ident word)) c R) :
    Agree (atWord word >>= f) (atWord word >>= g) c R := after rfl h

theorem failExpected {what : String} {Q : α → Cursor → Prop} :
    Agree (failExpected what) (Parser.failExpected what) c Q :=
  current (throw (by rintro _ ⟨⟩))

theorem unsupported {what : String} {span : Span} {Q : α → Cursor → Prop} :
    Agree (unsupported what span) (Parser.unsupported what span) c Q :=
  throw (by rintro _ ⟨⟩)

theorem expectWord {word : String} {f g : PUnit → Parser β}
    (h : c.kind ≠ .eof → Agree (f ⟨⟩) (g ⟨⟩) c.advance R) :
    Agree (expectWord word >>= f) (expectWord word >>= g) c R := by
  have hword : Agree (Parser.expectWord word) (Parser.expectWord word) c fun _ c' =>
      c.kind ≠ .eof ∧ c' = c.advance := by
    refine atWord (ite (fun hk => ?_) fun _ => failExpected)
    refine .ok rfl rfl ⟨?_, rfl⟩
    rw [beq_iff_eq.mp hk]
    rintro ⟨⟩
  refine hword.bind ?_
  rintro _ _ ⟨hk, rfl⟩
  exact h hk

/-- A statement ends after a semicolon or where it is. -/
theorem endStatement {L : Locator} {f g : PUnit → Parser β} (hsound : c.Sound L)
    (h : ∀ c', c.Reaches c' → Agree (f ⟨⟩) (g ⟨⟩) c' R) : Agree (endStatement >>= f) (endStatement >>= g) c R := by
  have hend : Agree Parser.endStatement Parser.endStatement c fun _ c' => c.Reaches c' := by
    refine eat (fun hk => pure (hsound.takes_advance (ne_eof hk (TokenKind.punct_ne_eof _))).reaches) fun _ => ?_
    refine current ?_
    split
    · exact pure (.refl hsound)
    · exact pure (.refl hsound)
    · exact ite (fun _ => pure (.refl hsound)) fun _ => throw (by rintro _ ⟨⟩)
  exact hend.bind fun _ => h

end Agree

end Parser

end MatchChain
