import MatchChain.Proofs.Text.Escapes
import MatchChain.Token.Lexer

/-!
# Text that is read as given tokens

`Spells cs kinds next` says that a text is read as tokens of these kinds, on one line, whatever comes
after it, as long as the next character is one of those allowed: a word must not go on, and punctuation
must not grow into a longer one. Texts that are spelled so can be put after one another.
-/

set_option autoImplicit false

namespace MatchChain

variable {c : Char}

/-! ## Words and punctuation -/

/-- A text that is read as one word. -/
def IsWord (w : String) : Prop :=
  ∃ c cs, w.toList = c :: cs ∧ isWordStart c = true ∧ ∀ d ∈ cs, isWordPart d = true

/-- A word that is no keyword. -/
structure IsName (w : String) : Prop where
  word : IsWord w
  free : Keyword.ofText? w = none

namespace Keyword

theorem mem_all (k : Keyword) : k ∈ all := by cases k <;> decide

theorem ofText?_text (k : Keyword) : ofText? k.text = some k := by
  have hall : ∀ k ∈ all, ofText? k.text = some k := by decide
  exact hall k k.mem_all

theorem isWord_text (k : Keyword) : IsWord k.text := by
  have hall : ∀ k ∈ all, k.text.toList.head?.any isWordStart = Bool.true ∧
      k.text.toList.tail.all isWordPart = Bool.true := by decide
  obtain ⟨hhead, htail⟩ := hall k k.mem_all
  cases htext : k.text.toList with
  | nil => simp [htext] at hhead
  | cons c cs =>
    rw [htext] at hhead htail
    exact ⟨c, cs, htext, by simpa using hhead, by simpa using htail⟩

end Keyword

/-- The next character, if there is one, does not continue a word. -/
def EndsWord (next : Option Char) : Prop := ∀ c, next = some c → isWordPart c = false

theorem not_isDigit_of_isWordStart (h : isWordStart c = true) : c.isDigit = false := by
  cases hdigit : c.isDigit with
  | false => rfl
  | true =>
    have hrange : 48 ≤ c.val ∧ c.val ≤ 57 := by simpa [Char.isDigit] using hdigit
    have hstart : (65 ≤ c.val ∧ c.val ≤ 90) ∨ (97 ≤ c.val ∧ c.val ≤ 122) ∨ c = '_' ∨ c = '$' := by
      have hstart : (decide (65 ≤ c.val ∧ c.val ≤ 90) || (decide (97 ≤ c.val) && decide (c.val ≤ 122))
          || c == '_' || c == '$') = true := h
      simpa [or_assoc] using hstart
    rcases hstart with h | h | rfl | rfl
    · grind
    · grind
    · exact absurd hrange (by decide)
    · exact absurd hrange (by decide)

theorem isWordPart_of_isWordStart (h : isWordStart c = true) : isWordPart c = true := by
  simp only [isWordStart, isWordPart, Char.isAlphanum, Bool.or_eq_true] at h ⊢
  rcases h with (h | h) | h <;> simp [h]

namespace Punct

/-- Whether punctuation would be read as something else if this character came right after it: as longer
    punctuation, a comment or a number. -/
def extendedBy (p : Punct) (c : Char) : Bool :=
  all.any (fun q => (p.text.toList ++ [c]).isPrefixOf q.text.toList)
    || (p == .slash && (c == '/' || c == '*')) || (p == .dot && c.isDigit)

/-- The next character, if there is one, leaves punctuation as it is. -/
def Ends (p : Punct) (next : Option Char) : Prop := ∀ c, next = some c → p.extendedBy c = false

theorem mem_all (p : Punct) : p ∈ all := by cases p <;> decide

theorem all_pairwise_length :
    all.Pairwise fun p q => q.text.toList.length ≤ p.text.toList.length := by decide

theorem text_injective {p q : Punct} (h : p.text.toList = q.text.toList) : p = q := by
  have hinj : ∀ p ∈ all, ∀ q ∈ all, p.text.toList = q.text.toList → p = q := by decide
  exact hinj p p.mem_all q q.mem_all h

/-- Punctuation is found in front of whatever does not extend it. -/
theorem ofStart?_append {p : Punct} {rest : List Char} (h : p.Ends rest.head?) :
    ofStart? (p.text.toList ++ rest) = some p := by
  obtain ⟨before, after, hall⟩ := List.append_of_mem p.mem_all
  refine List.find?_eq_some_iff_append.mpr ⟨by simp, before, after, hall, ?_⟩
  intro q hq
  have hsorted := all_pairwise_length
  rw [hall, List.pairwise_append] at hsorted
  have hlength : p.text.toList.length ≤ q.text.toList.length :=
    hsorted.2.2 q hq p List.mem_cons_self
  rw [Bool.not_eq_true', ← Bool.not_eq_true, List.isPrefixOf_iff_prefix]
  -- A longer text that fits goes on with the next character; one as long as `p` would be `p` again.
  intro hprefix
  obtain hpq := List.prefix_of_prefix_length_le (List.prefix_append p.text.toList rest) hprefix hlength
  obtain ⟨more, hmore⟩ := hpq
  cases more with
  | nil =>
    rw [List.append_nil] at hmore
    have hnodup : all.Nodup := by decide
    rw [hall, List.nodup_append] at hnodup
    exact hnodup.2.2 q hq p List.mem_cons_self (text_injective hmore).symm
  | cons c more =>
    rw [← hmore, List.prefix_append_right_inj] at hprefix
    obtain ⟨others, hothers⟩ := hprefix
    rw [← hothers] at h
    have hext : p.extendedBy c = true := by
      have hfound : all.any (fun q => (p.text.toList ++ [c]).isPrefixOf q.text.toList) = true := by
        refine List.any_eq_true.mpr ⟨q, q.mem_all, List.isPrefixOf_iff_prefix.mpr ⟨more, ?_⟩⟩
        rw [← hmore, List.append_assoc, List.singleton_append]
      simp [extendedBy, hfound]
    rw [h c rfl] at hext
    cases hext

end Punct

/-! ## One lexeme -/

namespace Lexeme

theorem read_word {cs rest : List Char} (offset : Nat) (hc : isWordStart c = true)
    (hcs : ∀ d ∈ cs, isWordPart d = true) (hnext : EndsWord rest.head?) :
    read offset c (cs ++ rest) = .token cs.length (wordKind (String.ofList (c :: cs))) := by
  have hne : ∀ d, isWordStart d = false → c ≠ d := by
    rintro d hd rfl
    rw [hc] at hd
    cases hd
  have hseparator : isSeparator c = false := by
    simp [isSeparator, hne ' ' (by decide), hne '\t' (by decide), hne '\r' (by decide),
      hne '\n' (by decide), hne '\x0c' (by decide)]
  have hdigit := not_isDigit_of_isWordStart hc
  have hspan : (cs ++ rest).takeWhile isWordPart = cs := by
    rw [List.takeWhile_append_of_pos hcs]
    cases rest with
    | nil => simp
    | cons d rest => simp [hnext d rfl]
  simp [read, hseparator, hdigit, hne '/' (by decide), hne '.' (by decide), hne '"' (by decide),
    hne '\'' (by decide), hne '\x60' (by decide), hc, hspan]

/-- What can stand at the start of punctuation. -/
theorem read_punct {p : Punct} {cs rest : List Char} (offset : Nat)
    (htext : p.text.toList = c :: cs) (hnext : p.Ends rest.head?) :
    read offset c (cs ++ rest) = .token cs.length (.punct p) := by
  have hstart : ∀ p ∈ Punct.all, p.text.toList.head?.all (fun d => decide (isSeparator d = false ∧
      d.isDigit = false ∧ d ≠ '"' ∧ d ≠ '\'' ∧ d ≠ '\x60' ∧ isWordStart d = false)) = true := by decide
  have hfirst := hstart p p.mem_all
  rw [htext] at hfirst
  obtain ⟨hseparator, hdigit, hdouble, hsingle, hback, hword⟩ := of_decide_eq_true hfirst
  have hcomment : ∀ d, (d = '/' ∨ d = '*') → ¬ (c = '/' ∧ (cs ++ rest).head? = some d) := by
    rintro d hd ⟨rfl, hhead⟩
    have hslash : ∀ p ∈ Punct.all, p.text.toList.head? = some '/' →
        p = .slash ∨ p.text.toList = ['/', '='] := by decide
    rcases hslash p p.mem_all (by rw [htext]; rfl) with rfl | heq
    · cases htext
      have hext := hnext d hhead
      rcases hd with rfl | rfl <;> exact absurd hext (by decide)
    · rw [htext] at heq
      cases heq
      cases hhead
      rcases hd with hd | hd <;> cases hd
  have hnumber : ¬ (c = '.' ∧ (cs ++ rest).head?.any Char.isDigit = true) := by
    rintro ⟨rfl, hhead⟩
    have hdot : ∀ p ∈ Punct.all, p.text.toList.head? = some '.' →
        p = .dot ∨ p.text.toList = ['.', '.', '.'] := by decide
    rcases hdot p p.mem_all (by rw [htext]; rfl) with rfl | heq
    · cases htext
      cases hd : rest.head? with
      | none => simp [hd] at hhead
      | some d =>
        have hext := hnext d hd
        have hdigit : d.isDigit = true := by simpa [hd] using hhead
        simp [Punct.extendedBy, hdigit] at hext
    · rw [htext] at heq
      cases heq
      cases hhead
  have hfound : Punct.ofStart? (c :: (cs ++ rest)) = some p := by
    have := Punct.ofStart?_append hnext
    rwa [htext] at this
  have hlength : p.text.length = cs.length + 1 := by
    rw [← String.length_toList, htext, List.length_cons]
  simp only [read, hseparator, hdigit, hword, hfound, hlength, Bool.false_eq_true, if_false,
    hcomment '/' (.inl rfl), hcomment '*' (.inr rfl), false_or, hnumber, hdouble, hsingle, hback,
    Nat.add_sub_cancel]

end Lexeme

/-! ## Quoted texts -/

namespace Text

/-- The characters of a string body that stand for themselves inside single quotes. -/
def IsPlain (c : Char) : Prop := c ≠ '\'' ∧ c ≠ '\\' ∧ c ≠ '\n' ∧ c ≠ '\r'

instance (c : Char) : Decidable (IsPlain c) := inferInstanceAs (Decidable (_ ∧ _ ∧ _ ∧ _))

/-- The one piece that is not passed as a whole: a line continuation over a line break of two characters. -/
def lineBreak : List Char := ['\\', '\r', '\n']

/-- A piece that may stand inside single quotes: no bare quote and no bare line break. -/
def IsInner (piece : List Char) : Prop := piece ∉ [['\''], ['\n'], ['\r']]

theorem stringLength_plain {cs : List Char} (h : ∀ c ∈ cs, IsPlain c) (rest : List Char) :
    stringLength '\'' (cs ++ rest) = ((stringLength '\'' rest).1 + cs.length, (stringLength '\'' rest).2) := by
  induction cs with
  | nil => rfl
  | cons c cs ih =>
    obtain ⟨⟨hquote, hback, hfeed, hreturn⟩, hcs⟩ := List.forall_mem_cons.mp h
    rw [List.cons_append, stringLength.eq_3 _ _ _ (by simp [hback])]
    simp [hquote, hback, hfeed, hreturn, ih hcs, Nat.add_assoc]

theorem stringLength_escape {cs : List Char} (h : ∀ c ∈ cs, IsPlain c) (c : Char) (rest : List Char) :
    stringLength '\'' ('\\' :: c :: (cs ++ rest))
      = ((stringLength '\'' rest).1 + (cs.length + 2), (stringLength '\'' rest).2) := by
  rw [stringLength, stringLength_plain h]
  rfl

/-- A piece inside single quotes is passed as a whole. -/
theorem Stands.stringLength_append {next piece text : List Char} (h : Stands next piece text) (hinner : IsInner piece)
    (hbreak : piece ≠ lineBreak) (rest : List Char) :
    stringLength '\'' (piece ++ rest)
      = ((stringLength '\'' rest).1 + piece.length, (stringLength '\'' rest).2) := by
  have hcode {ds : List Char} {c : Char} (h : Names ds c) : ∀ d ∈ ds, IsPlain d := by
    intro d hd
    have := (h.plain d hd).2
    simp_all [IsPlain]
  cases h with
  | plain hback =>
    refine stringLength_plain (List.forall_mem_singleton.mpr ?_) rest
    simp_all [IsInner, IsPlain]
  | carriageReturnLineFeed => exact absurd rfl hbreak
  | hex _ h | unicode _ h => exact stringLength_escape (hcode h) _ rest
  | @braced ds _ _ h =>
    have hplain : ∀ d ∈ '{' :: (ds ++ ['}']), IsPlain d :=
      List.forall_mem_cons.mpr ⟨by decide, List.forall_mem_append.mpr ⟨hcode h, by simp [IsPlain]⟩⟩
    exact stringLength_escape hplain 'u' rest
  | unclosed _ h _ => exact stringLength_escape (List.forall_mem_cons.mpr ⟨by decide, hcode h⟩) 'u' rest
  | _ => exact stringLength_escape (List.forall_mem_nil _) _ rest

/-- A literal ends after its pieces, unless a line break in them ends it first. -/
theorem Cooks.stringLength_append {pieces : List (List Char)} {text : List Char} (h : Cooks pieces text)
    (hinner : ∀ piece ∈ pieces, IsInner piece) (rest : List Char) :
    if lineBreak ∈ pieces then (stringLength '\'' (pieces.flatten ++ '\'' :: rest)).2 = false
    else stringLength '\'' (pieces.flatten ++ '\'' :: rest) = (pieces.flatten.length + 1, true) := by
  induction h with
  | nil => rfl
  | @cons piece _ pieces _ hpiece _ ih =>
    obtain ⟨hfirst, hinner⟩ := List.forall_mem_cons.mp hinner
    have ih := ih hinner
    rw [List.flatten_cons, List.append_assoc]
    by_cases hbreak : piece = lineBreak
    · subst hbreak
      rw [if_pos List.mem_cons_self]
      rfl
    · rw [hpiece.stringLength_append hfirst hbreak]
      by_cases hrest : lineBreak ∈ pieces
      · rw [if_pos hrest] at ih
        rwa [if_pos (List.mem_cons_of_mem _ hrest)]
      · rw [if_neg hrest] at ih
        rw [if_neg (by simp [Ne.symm hbreak, hrest]), ih, List.length_append, Nat.add_right_comm, Nat.add_comm piece.length]

/-- A character that is written by its code has four digits, which are read back. -/
theorem hex4_names (h : c = '\u2028' ∨ c = '\u2029' ∨ isControl c = true) :
    (hex4 c.toNat).length = 4 ∧ Names (hex4 c.toNat) c := by
  have hcode : ∀ n ∈ (List.range 160).append [0x2028, 0x2029],
      (hex4 n).length = 4 ∧ scalar? (hex4 n) = some (Char.ofNat n) := by decide +kernel
  have hmem : c.toNat ∈ (List.range 160).append [0x2028, 0x2029] := by
    rcases h with rfl | rfl | h
    · decide
    · decide
    · have hrange : c.toNat < 160 := by
        simp only [isControl, Bool.or_eq_true, decide_eq_true_eq, Bool.and_eq_true] at h
        omega
      exact List.mem_append_left _ (List.mem_range.mpr hrange)
  obtain ⟨hlength, hread⟩ := hcode c.toNat hmem
  rw [Char.ofNat_toNat] at hread
  exact ⟨hlength, scalar?_eq_some_iff.mp hread⟩

/-- A quoted character is one piece, and stands for the character. -/
theorem stands_quoteChar (next : List Char) (c : Char) : Stands next (quoteChar c) [c] := by
  unfold quoteChar
  split
  · subst c
    exact .itself rfl rfl rfl (by decide)
  split
  · subst c
    exact .itself rfl rfl rfl (by decide)
  split
  · subst c
    exact .named rfl
  split
  · subst c
    exact .named rfl
  split
  · subst c
    exact .named rfl
  split
  · obtain ⟨hlength, hnames⟩ := hex4_names ‹_›
    exact .unicode hlength hnames
  · exact .plain ‹c ≠ '\\'›

theorem isInner_quoteChar (c : Char) : IsInner (quoteChar c) ∧ quoteChar c ≠ lineBreak := by
  unfold quoteChar
  repeat' split
  all_goals simp_all [IsInner, lineBreak]

/-- A quoted text has a piece for each character. -/
theorem cooks_quoted (cs : List Char) : Cooks (cs.map quoteChar) cs := by
  induction cs with
  | nil => exact .nil
  | cons c cs ih => exact .cons (stands_quoteChar _ c) ih

end Text

section Quoted

open Text (IsInner lineBreak)

variable {pieces : List (List Char)} {text : List Char}

/-- The token of a literal in single quotes. -/
theorem Lexeme.read_singleQuoted (h : Text.Cooks pieces text) (hinner : ∀ piece ∈ pieces, IsInner piece)
    (hbreak : lineBreak ∉ pieces) (offset : Nat) (rest : List Char) :
    read offset '\'' (pieces.flatten ++ '\'' :: rest)
      = .token (pieces.flatten.length + 1) (.str (String.ofList text)) := by
  have hlength := h.stringLength_append hinner rest
  rw [if_neg hbreak] at hlength
  have hcook := Text.cook?_eq_some_iff.mpr ⟨pieces, rfl, h⟩
  have hdigit : '\''.isDigit = false := by decide
  have hseparator : isSeparator '\'' = false := by decide
  simp only [read, hseparator, hdigit, hlength, Nat.add_sub_cancel, List.take_left, hcook]
  simp

theorem Lexeme.read_quoted (offset : Nat) (text : String) (rest : List Char) :
    read offset '\'' (text.toList.flatMap Text.quoteChar ++ '\'' :: rest)
      = .token ((text.toList.flatMap Text.quoteChar).length + 1) (.str text) := by
  have hread := read_singleQuoted (Text.cooks_quoted text.toList)
    (List.forall_mem_map.mpr fun c _ => (Text.isInner_quoteChar c).1) (fun hmem => ?_) offset rest
  · rwa [String.ofList_toList, ← List.flatMap_def] at hread
  · obtain ⟨c, _, hc⟩ := List.mem_map.mp hmem
    exact (Text.isInner_quoteChar c).2 hc

end Quoted

/-! ## Several tokens -/

namespace Token

/-- Reading `cs` gives tokens that satisfy `T`, with no line break at either end, as long as what comes after it
    may come next. -/
def Lexes (cs : List Char) (next : Option Char → Prop) (T : List Token → Prop) : Prop :=
  ∀ rest : List Char, next rest.head? →
    ∀ (offset : Nat) (gap : Gap) (found : Array Token), gap.lineBreak = false →
      ∃ (offset' : Nat) (gap' : Gap) (tokens : List Token),
        lexFrom offset gap found (cs ++ rest)
          = lexFrom offset' gap' (found ++ tokens.toArray) rest ∧
        gap'.lineBreak = false ∧ T tokens

namespace Lexes

variable {cs cs₁ cs₂ : List Char} {next next₁ next₂ : Option Char → Prop} {T T₁ T₂ : List Token → Prop}

theorem mono (h : Lexes cs next₁ T₁) (hnext : ∀ c, next₂ c → next₁ c) (hT : ∀ ts, T₁ ts → T₂ ts) :
    Lexes cs next₂ T₂ := by
  intro rest hrest offset gap found hgap
  obtain ⟨offset', gap', tokens, heq, hgap', htokens⟩ := h rest (hnext _ hrest) offset gap found hgap
  exact ⟨offset', gap', tokens, heq, hgap', hT _ htokens⟩

theorem nil (h : T []) : Lexes [] next T :=
  fun _ _ offset gap _ hgap => ⟨offset, gap, [], by simp, hgap, h⟩

/-- Texts after one another, where the second starts in a way that the first allows. -/
theorem append (h₁ : Lexes cs₁ next₁ T₁) (h₂ : Lexes cs₂ next₂ T₂)
    (hnext : ∀ rest : List Char, next₂ rest.head? → next₁ (cs₂ ++ rest).head?) :
    Lexes (cs₁ ++ cs₂) next₂ fun ts => ∃ ts₁ ts₂, ts = ts₁ ++ ts₂ ∧ T₁ ts₁ ∧ T₂ ts₂ := by
  intro rest hrest offset gap found hgap
  obtain ⟨offset₁, gap₁, tokens₁, heq₁, hgap₁, htokens₁⟩ :=
    h₁ (cs₂ ++ rest) (hnext rest hrest) offset gap found hgap
  obtain ⟨offset₂, gap₂, tokens₂, heq₂, hgap₂, htokens₂⟩ :=
    h₂ rest hrest offset₁ gap₁ (found ++ tokens₁.toArray) hgap₁
  refine ⟨offset₂, gap₂, tokens₁ ++ tokens₂, ?_, hgap₂, tokens₁, tokens₂, rfl, htokens₁, htokens₂⟩
  rw [List.append_assoc, heq₁, heq₂]
  simp [Array.append_assoc]

end Lexes

/-- Reading `cs` gives tokens of these kinds, none of them after a line break, as long as what comes
    after it may come next. -/
structure Spells (cs : List Char) (kinds : List TokenKind) (next : Option Char → Prop) : Prop where
  length_le : kinds.length ≤ cs.length
  lexFrom_append : Lexes cs next fun tokens => tokens.map (·.kind) = kinds ∧ ∀ t ∈ tokens, t.newlineBefore = false

namespace Spells

variable {cs cs₁ cs₂ : List Char} {kinds kinds₁ kinds₂ : List TokenKind}
  {next next₁ next₂ : Option Char → Prop}

theorem mono (h : Spells cs kinds next₁) (hnext : ∀ c, next₂ c → next₁ c) :
    Spells cs kinds next₂ :=
  ⟨h.length_le, h.lexFrom_append.mono hnext fun _ h => h⟩

theorem nil : Spells [] [] next := ⟨Nat.le_refl 0, .nil ⟨rfl, nofun⟩⟩

/-- Texts after one another, where the second starts in a way that the first allows. -/
theorem append (h₁ : Spells cs₁ kinds₁ next₁) (h₂ : Spells cs₂ kinds₂ next₂)
    (hnext : ∀ rest : List Char, next₂ rest.head? → next₁ (cs₂ ++ rest).head?) :
    Spells (cs₁ ++ cs₂) (kinds₁ ++ kinds₂) next₂ := by
  refine ⟨?_, (h₁.lexFrom_append.append h₂.lexFrom_append hnext).mono (fun _ h => h) ?_⟩
  · have hle₁ := h₁.length_le
    have hle₂ := h₂.length_le
    simp only [List.length_append]
    omega
  · rintro _ ⟨tokens₁, tokens₂, rfl, ⟨hkinds₁, hline₁⟩, hkinds₂, hline₂⟩
    exact ⟨by rw [List.map_append, hkinds₁, hkinds₂], List.forall_mem_append.mpr ⟨hline₁, hline₂⟩⟩

theorem blank : Spells [' '] [] next := by
  refine ⟨Nat.zero_le _, fun rest _ offset gap found hgap => ?_⟩
  refine ⟨offset + Text.byteLength [' '], gap.over [' '], [], ?_, ?_, rfl, nofun⟩
  · rw [List.singleton_append, lexFrom]
    have hread : Lexeme.read offset ' ' rest = .skip 0 := rfl
    simp [hread]
  · simp [Gap.over, hgap, isLineBreak]

/-- One lexeme that is a token. -/
theorem of_read {kind : TokenKind}
    (h : ∀ (rest : List Char) (offset : Nat), next rest.head? →
      Lexeme.read offset c (cs ++ rest) = .token cs.length kind) :
    Spells (c :: cs) [kind] next := by
  refine ⟨Nat.succ_le_succ (Nat.zero_le _), fun rest hrest offset gap found hgap => ?_⟩
  refine ⟨offset + Text.byteLength (c :: cs), {}, [⟨kind, Lexeme.spanOf offset (c :: cs), false⟩], ?_,
    rfl, rfl, by simp⟩
  rw [List.cons_append, lexFrom, h rest offset hrest]
  simp [hgap]

theorem punct (p : Punct) : Spells p.text.toList [.punct p] p.Ends := by
  have hne : ∀ p ∈ Punct.all, p.text.toList ≠ [] := by decide
  obtain ⟨c, cs, htext⟩ := List.exists_cons_of_ne_nil (hne p p.mem_all)
  rw [htext]
  exact of_read fun rest offset hrest => Lexeme.read_punct offset htext hrest

theorem word {w : String} (h : IsWord w) : Spells w.toList [Lexeme.wordKind w] EndsWord := by
  obtain ⟨c, cs, htext, hc, hcs⟩ := h
  rw [htext]
  refine of_read fun rest offset hrest => ?_
  rw [Lexeme.read_word offset hc hcs hrest, ← htext, String.ofList_toList]

theorem name {w : String} (h : IsName w) : Spells w.toList [.ident w] EndsWord := by
  have hword := word h.word
  rwa [Lexeme.wordKind, h.free] at hword

theorem keyword (k : Keyword) : Spells k.text.toList [.keyword k] EndsWord := by
  have hword := word k.isWord_text
  rwa [Lexeme.wordKind, k.ofText?_text] at hword

theorem quoted (text : String) : Spells (Text.quote text).toList [.str text] next := by
  rw [Text.quote, String.toList_ofList]
  refine of_read fun rest offset _ => ?_
  rw [List.append_assoc, List.length_append]
  exact Lexeme.read_quoted offset text rest

end Spells

/-- A whole text is read as the tokens that it spells, up to the end of file. -/
theorem lex_of_spells {source : String} {kinds : List TokenKind} {next : Option Char → Prop}
    (h : Spells source.toList kinds next) (hend : next none) :
    ∃ tokens : Array Token, lex source = .ok tokens ∧
      tokens.toList.map (·.kind) = kinds ++ [.eof] ∧
      ∀ t ∈ tokens.toList, t.kind ≠ .eof → t.newlineBefore = false := by
  obtain ⟨offset, gap, tokens, heq, _, hkinds, hline⟩ := h.lexFrom_append [] hend 0 {} #[] rfl
  rw [List.append_nil] at heq
  refine ⟨_, heq.trans (by rw [lexFrom]), ?_, ?_⟩
  · simp [hkinds]
  · intro t ht hkind
    simp only [Array.toList_push, Array.toList_append, List.nil_append, List.mem_append,
      List.mem_singleton] at ht
    rcases ht with ht | rfl
    · exact hline t ht
    · exact absurd rfl hkind

/-- A text in quotes is read as one string, which is the text, and nothing else: no character of it ends the string
    early or is read as another one. -/
theorem lex_quote (text : String) : lex (Text.quote text) = .ok #[
    ⟨.str text, Lexeme.spanOf 0 (Text.quote text).toList, false⟩,
    ⟨.eof, Lexeme.spanOf (Text.byteLength (Text.quote text).toList) [], false⟩] := by
  have hread := Lexeme.read_quoted 0 text []
  generalize hinner : text.toList.flatMap Text.quoteChar = inner at hread
  have htext : (Text.quote text).toList = '\'' :: (inner ++ ['\'']) := by
    rw [Text.quote, String.toList_ofList, hinner]
  have htake : (inner ++ ['\'']).take (inner.length + 1) = inner ++ ['\''] := List.take_of_length_le (by simp)
  have hdrop : (inner ++ ['\'']).drop (inner.length + 1) = [] := List.drop_of_length_le (by simp)
  rw [lex, lexAt, htext, lexFrom, hread]
  simp only [htake, hdrop, Nat.zero_add]
  rw [lexFrom]
  rfl

/-- A raw text that is cooked to another one, and that has no bare quote or line break, is read between single
    quotes as one string, unless a line continuation in it has a line break of two characters. -/
theorem lex_singleQuoted_iff {pieces : List (List Char)} {text : List Char} (h : Text.Cooks pieces text)
    (hinner : ∀ piece ∈ pieces, Text.IsInner piece) :
    (∃ tokens, lex (String.ofList ('\'' :: (pieces.flatten ++ ['\'']))) = .ok tokens ∧
      tokens.toList.map (·.kind) = [.str (String.ofList text), .eof]) ↔ Text.lineBreak ∉ pieces := by
  constructor
  · rintro ⟨tokens, hlex, -⟩ hbreak
    have hopen := h.stringLength_append hinner []
    rw [if_pos hbreak] at hopen
    have hdigit : '\''.isDigit = false := by decide
    have hseparator : isSeparator '\'' = false := by decide
    rw [lex, String.toList_ofList, lexAt, lexFrom] at hlex
    simp [Lexeme.read, hseparator, hdigit, hopen] at hlex
  · intro hbreak
    have hspells : Spells ('\'' :: (pieces.flatten ++ ['\''])) [.str (String.ofList text)] fun _ => True :=
      .of_read fun rest offset _ => by
        rw [List.append_assoc, List.length_append]
        exact Lexeme.read_singleQuoted h hinner hbreak offset rest
    rw [← String.toList_ofList (l := '\'' :: (pieces.flatten ++ ['\'']))] at hspells
    obtain ⟨tokens, hlex, hkinds, -⟩ := lex_of_spells hspells trivial
    exact ⟨tokens, hlex, hkinds⟩

/-- A line continuation that cooking reads as one ends a string before its quote. -/
theorem lex_lineBreak : Text.cook? "a\\\r\nb".toList = some "ab".toList ∧ (lex "'a\\\r\nb'").toOption = none := by
  decide +kernel

end Token

end MatchChain
