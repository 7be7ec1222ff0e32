import MatchChain.Proofs.Token.Layout

/-!
# Reading a text at another place

Where a text stands in its file matters to spans only: the tokens of a text that starts at byte `base`
are those of the text alone with every span shifted by `base`, those in template literals included, and
so is the error of a text that has no tokens (`lexAt_shift`). Offsets must fit, since larger ones are
clamped.
-/

set_option autoImplicit false

namespace MatchChain

variable {cs : List Char}

/-! ## Shifting -/

def Span.shift (base : Nat) (s : Span) : Span := ⟨base + s.start, base + s.stop⟩

def TemplateText.shift (base : Nat) (t : TemplateText) : TemplateText := { t with span := t.span.shift base }

def TemplateHole.shift (base : Nat) (h : TemplateHole) : TemplateHole := { h with span := h.span.shift base }

def TemplateParts.shift (base : Nat) (p : TemplateParts) : TemplateParts :=
  ⟨p.texts.map (·.shift base), p.holes.map (·.shift base)⟩

def TokenKind.shift (base : Nat) : TokenKind → TokenKind
  | .template parts => .template (parts.shift base)
  | kind => kind

def Token.shift (base : Nat) (t : Token) : Token :=
  { t with kind := t.kind.shift base, span := t.span.shift base }

def LexError.shift (base : Nat) : LexError → LexError
  | .unterminatedString span => .unterminatedString (span.shift base)
  | .unterminatedTemplate span => .unterminatedTemplate (span.shift base)
  | .unterminatedComment span => .unterminatedComment (span.shift base)
  | .invalidEscape span => .invalidEscape (span.shift base)
  | .invalidNumber span text => .invalidNumber (span.shift base) text
  | .unexpectedCharacter span c => .unexpectedCharacter (span.shift base) c

def Lexeme.shift (base : Nat) : Lexeme → Lexeme
  | .skip extra => .skip extra
  | .token extra kind => .token extra (kind.shift base)
  | .fault e => .fault (e.shift base)

/-- A result or an error, each shifted in its way. -/
def shiftResult {α : Type} (base : Nat) (shift : α → α) : Except LexError α → Except LexError α
  | .ok a => .ok (shift a)
  | .error e => .error (e.shift base)

/-! ## One lexeme -/

namespace Lexeme

open RawTemplate (tailChars)

variable {base offset : Nat}

theorem spanOf_shift (h : base + offset + Text.byteLength cs ≤ maxOffset) :
    spanOf (base + offset) cs = (spanOf offset cs).shift base := by
  simp only [spanOf, Span.shift, clampOffset, Span.mk.injEq]
  omega

theorem number_shift {form : NumberForm} {text : List Char}
    (h : base + offset + Text.byteLength text ≤ maxOffset) :
    number (base + offset) form text = shiftResult base (TokenKind.shift base) (number offset form text) := by
  have hspan := spanOf_shift h
  unfold number
  cases form with
  | bigint => rfl
  | decimal =>
    dsimp only
    cases Double.parse? (withoutUnderscores text) with
    | some => rfl
    | none => simp [shiftResult, LexError.shift, hspan]
  | hex =>
    dsimp only
    cases wordValue? 16 ((withoutUnderscores text).drop 2) with
    | some => rfl
    | none => simp [shiftResult, LexError.shift, hspan]
  | binary =>
    dsimp only
    cases wordValue? 2 ((withoutUnderscores text).drop 2) with
    | some => rfl
    | none => simp [shiftResult, LexError.shift, hspan]

/-- Texts and holes, shifted. -/
def shiftTail (base : Nat) (r : List TemplateText × List TemplateHole) : List TemplateText × List TemplateHole :=
  (r.1.map (·.shift base), r.2.map (·.shift base))

theorem templateTail_shift {tail : List (List Char × List Char)}
    (h : base + offset + Text.byteLength (tailChars tail) ≤ maxOffset) :
    templateTail (base + offset) tail = shiftResult base (shiftTail base) (templateTail offset tail) := by
  induction tail generalizing offset with
  | nil => rfl
  | cons piece tail ih =>
    obtain ⟨code, raw⟩ := piece
    rw [byteLength_tailChars] at h
    have hcode : spanOf (base + offset + 2) code = (spanOf (offset + 2) code).shift base := by
      rw [Nat.add_assoc]
      exact spanOf_shift (by omega)
    have htextAt : base + offset + 2 + Text.byteLength code + 1
        = base + (offset + 2 + Text.byteLength code + 1) := by omega
    have hraw : spanOf (base + offset + 2 + Text.byteLength code + 1) raw
        = (spanOf (offset + 2 + Text.byteLength code + 1) raw).shift base := by
      rw [htextAt]
      exact spanOf_shift (by omega)
    have hrest : templateTail (base + offset + 2 + Text.byteLength code + 1 + Text.byteLength raw) tail
        = shiftResult base (shiftTail base)
          (templateTail (offset + 2 + Text.byteLength code + 1 + Text.byteLength raw) tail) := by
      rw [htextAt, Nat.add_assoc base]
      exact ih (by omega)
    rw [templateTail, templateTail]
    cases Text.cook? raw with
    | none => simp [shiftResult, LexError.shift, hraw]
    | some text =>
      simp only [hrest]
      cases templateTail (offset + 2 + Text.byteLength code + 1 + Text.byteLength raw) tail with
      | error e => rfl
      | ok r => simp [shiftResult, shiftTail, TemplateText.shift, TemplateHole.shift, hraw, hcode]

theorem templateParts_shift {raw : RawTemplate}
    (h : base + offset + 1 + Text.byteLength raw.chars ≤ maxOffset) :
    templateParts (base + offset) raw = shiftResult base (TemplateParts.shift base) (templateParts offset raw) := by
  rw [RawTemplate.chars, Text.byteLength_append] at h
  have hhead : spanOf (base + offset + 1) raw.head = (spanOf (offset + 1) raw.head).shift base := by
    rw [Nat.add_assoc]
    exact spanOf_shift (by omega)
  have htail : templateTail (base + offset + 1 + Text.byteLength raw.head) raw.tail
      = shiftResult base (shiftTail base) (templateTail (offset + 1 + Text.byteLength raw.head) raw.tail) := by
    rw [Nat.add_assoc base, Nat.add_assoc base]
    exact templateTail_shift (by omega)
  rw [templateParts, templateParts]
  cases Text.cook? raw.head with
  | none => simp [shiftResult, LexError.shift, hhead]
  | some text =>
    simp only [htail]
    cases templateTail (offset + 1 + Text.byteLength raw.head) raw.tail with
    | error e => rfl
    | ok r => simp [shiftResult, shiftTail, TemplateParts.shift, TemplateText.shift, hhead]

theorem ofExcept_shift (extra : Nat) (r : Except LexError TokenKind) :
    ofExcept extra (shiftResult base (TokenKind.shift base) r) = (ofExcept extra r).shift base := by
  cases r <;> rfl

theorem shift_wordKind (word : String) : (wordKind word).shift base = wordKind word := by
  unfold wordKind
  split <;> rfl

theorem read_shift {c : Char} (h : base + offset + Text.byteLength (c :: cs) ≤ maxOffset) :
    read (base + offset) c cs = (read offset c cs).shift base := by
  have hfits : ∀ part : List Char, part <+: c :: cs → base + offset + Text.byteLength part ≤ maxOffset := by
    intro part ⟨rest, hrest⟩
    rw [← hrest, Text.byteLength_append] at h
    omega
  have hspan : ∀ part : List Char, part <+: c :: cs →
      spanOf (base + offset) part = (spanOf offset part).shift base :=
    fun part hpart => spanOf_shift (hfits part hpart)
  have hstring : ∀ length, c :: cs.take length <+: c :: cs := fun length =>
    List.cons_prefix_cons.mpr ⟨rfl, List.take_prefix _ _⟩
  unfold read
  split
  · rfl
  split
  · rfl
  split
  · split
    · rfl
    · rw [hspan _ (List.prefix_refl _)]
      rfl
  split
  · rw [← ofExcept_shift]
    dsimp only
    rw [number_shift (hfits _ (List.take_prefix _ _))]
  split
  · dsimp only
    rw [hspan _ (hstring _)]
    split
    · split <;> rfl
    · rfl
  split
  · split
    · rw [hspan _ (List.prefix_refl _)]
      rfl
    · rename_i raw rest hread
      have hcs := RawTemplate.read?_eq hread
      rw [Text.byteLength_cons, hcs, Text.byteLength_append] at h
      have hsize := Char.utf8Size_pos c
      rw [← ofExcept_shift, templateParts_shift (by omega)]
      cases templateParts offset raw <;> rfl
  split
  · rw [shift, shift_wordKind]
  · split
    · rfl
    · rw [hspan [c] (List.cons_prefix_cons.mpr ⟨rfl, List.nil_prefix⟩)]
      rfl

end Lexeme

/-! ## A whole text -/

namespace Token

theorem lexFrom_shift {base offset : Nat} {gap : Gap} {found : Array Token}
    (h : base + offset + Text.byteLength cs ≤ maxOffset) :
    lexFrom (base + offset) gap (found.map (·.shift base)) cs
      = shiftResult base (·.map (·.shift base)) (lexFrom offset gap found cs) := by
  fun_induction lexFrom offset gap found cs with
  | case1 offset gap found =>
    rw [lexFrom, Lexeme.spanOf_shift h, shiftResult, Array.map_push]
    rfl
  | case2 offset gap found c cs e hread =>
    rw [lexFrom, Lexeme.read_shift h, hread]
    rfl
  | case3 offset gap found c cs extra hread text ih =>
    have hsplit : c :: cs = text ++ cs.drop extra := by simp [text]
    rw [lexFrom, Lexeme.read_shift h, hread]
    rw [hsplit, Text.byteLength_append] at h
    dsimp only [Lexeme.shift]
    rw [Nat.add_assoc, ih (by omega)]
  | case4 offset gap found c cs extra kind hread text token ih =>
    have hsplit : c :: cs = text ++ cs.drop extra := by simp [text]
    rw [lexFrom, Lexeme.read_shift h, hread]
    rw [hsplit, Text.byteLength_append] at h
    dsimp only [Lexeme.shift]
    have hspan : Lexeme.spanOf (base + offset) text = (Lexeme.spanOf offset text).shift base :=
      Lexeme.spanOf_shift (by omega)
    rw [hspan, Nat.add_assoc, ← ih (by omega), Array.map_push]
    rfl

/-- The tokens of a text are the same wherever it stands, but for their spans. -/
theorem lexAt_shift {base : Nat} {text : List Char} (h : base + Text.byteLength text ≤ maxOffset) :
    lexAt base text = shiftResult base (·.map (·.shift base)) (lexAt 0 text) := by
  have hall : lexFrom (base + 0) {} (#[].map (Token.shift base)) text = _ := lexFrom_shift h
  rw [Array.map_empty, Nat.add_zero] at hall
  exact hall

end Token

end MatchChain
