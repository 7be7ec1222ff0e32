import MatchChain.Proofs.Token.Spelling
import MatchChain.Proofs.Token.Template
import MatchChain.Token.Lexer

/-!
# Where the tokens of a text stand

The tokens of a text stand in order, one after the other, and the last one is the end of file
(`laid_of_lexAt`). A name is spelled like one and is what the text says at its span, and so is the code of
every hole of a template literal, so that the tokens of that code stand where they seem to stand in the file.

What "the text says" is a parameter, a `Locator`: spans are in order in every text, but offsets are
clamped, and only a text short enough for its offsets says at a span what was read there.
-/

set_option autoImplicit false

namespace MatchChain

variable {cs : List Char} {kind : TokenKind} {offset : Nat} {text : List Char} {holes : List TemplateHole}
  {c : Char}

theorem clampOffset_mono {m n : Nat} (h : m ≤ n) : clampOffset m ≤ clampOffset n := by
  unfold clampOffset
  omega

theorem clampOffset_clampOffset_add (m n : Nat) : clampOffset (clampOffset m + n) = clampOffset (m + n) := by
  unfold clampOffset
  omega

theorem clampOffset_clampOffset (n : Nat) : clampOffset (clampOffset n) = clampOffset n :=
  clampOffset_clampOffset_add n 0

/-- A test of a result that comes out true has a result to look at. -/
theorem ok_of_any {ε α : Type} {r : Except ε α} {p : α → Bool} (h : r.toOption.any p = true) :
    ∃ a, r = .ok a ∧ p a = true := by
  cases r with
  | error e => cases h
  | ok a => exact ⟨a, rfl, h⟩

/-! ## Slices -/

namespace Text

theorem dropBytes?_cons {n : Nat} (c : Char) (cs : List Char) :
    dropBytes? (c.utf8Size + n) (c :: cs) = dropBytes? n cs := by
  obtain ⟨m, hm⟩ := Nat.exists_eq_succ_of_ne_zero (Nat.ne_of_gt (Char.utf8Size_pos c))
  have hadd : c.utf8Size + n = m + n + 1 := by omega
  rw [hadd, dropBytes?, if_pos (by omega)]
  congr 1
  omega

theorem takeBytes?_cons {n : Nat} (c : Char) (cs : List Char) :
    takeBytes? (c.utf8Size + n) (c :: cs) = (takeBytes? n cs).map (c :: ·) := by
  obtain ⟨m, hm⟩ := Nat.exists_eq_succ_of_ne_zero (Nat.ne_of_gt (Char.utf8Size_pos c))
  have hadd : c.utf8Size + n = m + n + 1 := by omega
  rw [hadd, takeBytes?, if_pos (by omega)]
  congr 2
  omega

theorem dropBytes?_append (before after : List Char) : dropBytes? (byteLength before) (before ++ after) = some after := by
  induction before with
  | nil => cases after <;> rfl
  | cons c before ih => rw [byteLength_cons, List.cons_append, dropBytes?_cons, ih]

theorem takeBytes?_append (cs after : List Char) : takeBytes? (byteLength cs) (cs ++ after) = some cs := by
  induction cs with
  | nil => cases after <;> rfl
  | cons c cs ih => rw [byteLength_cons, List.cons_append, takeBytes?_cons, ih, Option.map_some]

/-- What stands between two texts is the slice from the end of one to the start of the other. -/
theorem sliceBytes?_append (before cs after : List Char) :
    sliceBytes? (byteLength before) (byteLength before + byteLength cs) (before ++ (cs ++ after)) = some cs := by
  rw [sliceBytes?, if_pos (Nat.le_add_right _ _), dropBytes?_append, Option.bind_some, Nat.add_sub_cancel_left,
    takeBytes?_append]

theorem eq_nil_of_byteLength (h : byteLength cs = 0) : cs = [] := by
  cases cs with
  | nil => rfl
  | cons c cs =>
    have hpos := Char.utf8Size_pos c
    rw [byteLength_cons] at h
    omega

end Text

/-! ## Locators -/

/-- Something that may be known of a text and the offset where it stands. If it is known of a text it
    is known of its parts, and clamping an offset does not change it. -/
structure Locator where
  At : Nat → List Char → Prop
  split : ∀ {n : Nat} {s t : List Char}, At n (s ++ t) → At n s ∧ At (n + Text.byteLength s) t
  clamp : ∀ {offset : Nat} {cs : List Char}, At offset cs → At (clampOffset offset) cs

namespace Locator

/-- The locator that knows nothing. -/
def blind : Locator where
  At _ _ := True
  split _ := ⟨trivial, trivial⟩
  clamp h := h

/-- The characters `cs` stand in `source` after `offset` bytes. -/
def Stands (source : List Char) (offset : Nat) (cs : List Char) : Prop :=
  ∃ before after, source = before ++ (cs ++ after) ∧ Text.byteLength before = offset

/-- The locator that knows a source text whose offsets all fit. -/
def ofSource (source : List Char) (h : Text.byteLength source ≤ maxOffset) : Locator where
  At := Stands source
  split := by
    rintro _ cs ds ⟨before, after, rfl, rfl⟩
    refine ⟨⟨before, ds ++ after, by simp, rfl⟩, before ++ cs, after, by simp, by simp⟩
  clamp := by
    rintro _ cs ⟨before, after, rfl, rfl⟩
    refine ⟨before, after, rfl, ?_⟩
    rw [Text.byteLength_append] at h
    unfold clampOffset
    omega

/-- The span is where `cs` stands, and lies between two offsets. -/
structure Covers (L : Locator) (lo hi : Nat) (span : Span) (cs : List Char) : Prop where
  start_le : lo ≤ span.start
  le_stop : span.stop ≤ hi
  span_eq : span = Lexeme.spanOf span.start cs
  here : L.At span.start cs

variable {L : Locator} {lo hi : Nat} {span : Span} {cs : List Char}

theorem covers_spanOf (h : L.At offset cs) (hlo : lo ≤ offset)
    (hhi : offset + Text.byteLength cs ≤ hi) :
    L.Covers (clampOffset lo) (clampOffset hi) (Lexeme.spanOf offset cs) cs where
  start_le := clampOffset_mono hlo
  le_stop := clampOffset_mono hhi
  span_eq := by
    rw [Lexeme.spanOf, Lexeme.spanOf, clampOffset_clampOffset, clampOffset_clampOffset_add]
  here := L.clamp h

namespace Covers

variable (h : L.Covers lo hi span cs)

include h

theorem stop_eq : span.stop = clampOffset (span.start + Text.byteLength cs) := congrArg Span.stop h.span_eq

theorem start_le_stop : span.start ≤ span.stop := by
  have hstart : span.start = clampOffset span.start := congrArg Span.start h.span_eq
  rw [h.stop_eq, hstart, clampOffset_clampOffset_add]
  exact clampOffset_mono (Nat.le_add_right _ _)

theorem at_start : L.At span.start [] := (L.split (s := []) h.here).1

theorem at_stop : L.At span.stop [] := by
  rw [h.stop_eq]
  refine L.clamp (L.split (s := cs) (t := []) ?_).2
  rw [List.append_nil]
  exact h.here

theorem widen {lo' hi' : Nat} (hlo : lo' ≤ lo) (hhi : hi ≤ hi') : L.Covers lo' hi' span cs :=
  { h with start_le := Nat.le_trans hlo h.start_le, le_stop := Nat.le_trans h.le_stop hhi }

end Covers

end Locator

namespace Locator

open Text

variable {source : List Char} {start stop : Nat}

theorem Stands.slice (h : Stands source start cs) :
    sliceBytes? start (start + byteLength cs) source = some cs := by
  obtain ⟨before, after, rfl, rfl⟩ := h
  exact sliceBytes?_append before cs after

theorem Stands.le (h : Stands source start cs) : start ≤ byteLength source := by
  obtain ⟨before, after, rfl, rfl⟩ := h
  rw [byteLength_append]
  exact Nat.le_add_right _ _

/-- In a source whose offsets all fit, what a span covers is its slice. -/
theorem Covers.slice {source : String} {hlength : byteLength source.toList ≤ maxOffset} {lo hi : Nat} {span : Span}
    (h : (ofSource source.toList hlength).Covers lo hi span cs) :
    span.slice? source = some (String.ofList cs) := by
  have hstands : Stands source.toList span.start cs := h.here
  have hfits : span.start + byteLength cs ≤ maxOffset := by
    obtain ⟨before, after, heq, hbefore⟩ := hstands
    rw [heq, byteLength_append, byteLength_append] at hlength
    omega
  have hstop : span.stop = span.start + byteLength cs := by
    rw [h.stop_eq]
    exact Nat.min_eq_left hfits
  rw [Span.slice?, hstop, hstands.slice, Option.map_some]

/-- Between two boundaries in order there is a slice. -/
theorem Stands.between (h : Stands source start []) (h' : Stands source stop []) (hle : start ≤ stop) :
    ∃ cs, sliceBytes? start stop source = some cs := by
  obtain ⟨before, after, rfl, rfl⟩ := h
  obtain ⟨before', after', heq, rfl⟩ := h'
  rcases List.append_eq_append_iff.mp heq with ⟨mid, rfl, hafter⟩ | ⟨mid, rfl, hafter⟩
  · rw [byteLength_append, heq, List.append_assoc]
    exact ⟨mid, sliceBytes?_append before mid ([] ++ after')⟩
  · rw [byteLength_append] at hle
    obtain rfl : mid = [] := eq_nil_of_byteLength (by omega)
    rw [List.append_nil]
    exact ⟨[], sliceBytes?_append before' [] after⟩

end Locator

/-! ## Weights -/

/-- How many characters the codes of holes have. -/
def codeLength : List TemplateHole → Nat
  | [] => 0
  | hole :: holes => hole.code.length + codeLength holes

theorem length_le_codeLength {hole : TemplateHole} (h : hole ∈ holes) :
    hole.code.length ≤ codeLength holes := by
  induction holes with
  | nil => cases h
  | cons first holes ih =>
    rcases List.mem_cons.mp h with rfl | hmem
    · exact Nat.le_add_right _ _
    · exact Nat.le_trans (ih hmem) (Nat.le_add_left _ _)

/-- How many characters a token has at least, those of the code in it included. -/
def TokenKind.weight : TokenKind → Nat
  | .eof => 0
  | .template parts => 1 + codeLength parts.holes
  | _ => 1

theorem TokenKind.weight_pos {k : TokenKind} (h : k ≠ .eof) : 0 < k.weight := by
  cases k with
  | eof => exact absurd rfl h
  | template parts => exact Nat.lt_of_lt_of_le Nat.zero_lt_one (Nat.le_add_right _ _)
  | _ => exact Nat.zero_lt_one

/-- The weight of tokens together. -/
def Token.weights : List Token → Nat
  | [] => 0
  | t :: ts => t.kind.weight + weights ts

/-! ## The characters of numbers -/

section

open RawTemplate (isIdle isIdle_of marks)

variable {d : Char} {cs : List Char}

theorem idle_take_add {m n : Nat} (h : ∀ c ∈ cs.take m, isIdle c = true)
    (h' : ∀ c ∈ (cs.drop m).take n, isIdle c = true) : ∀ c ∈ cs.take (m + n), isIdle c = true := by
  rw [List.take_add]
  exact List.forall_mem_append.mpr ⟨h, h'⟩

theorem idle_takeWhile {p : Char → Bool} (hmarks : marks.all (fun c => !p c) = true) (cs : List Char) :
    ∀ c ∈ cs.take (cs.takeWhile p).length, isIdle c = true := by
  rw [← List.prefix_iff_eq_take.mp (List.takeWhile_prefix p)]
  exact fun c hc => isIdle_of (List.all_eq_true.mp List.all_takeWhile c hc) hmarks

theorem idle_take_one (h : cs.head? = some d) (hd : isIdle d = true) : ∀ c ∈ cs.take 1, isIdle c = true := by
  obtain ⟨tail, rfl⟩ := List.head?_eq_some_iff.mp h
  exact List.forall_mem_singleton.mpr hd

theorem idle_fraction (cs : List Char) : ∀ c ∈ cs.take (fractionLength cs), isIdle c = true := by
  unfold fractionLength
  split
  · exact idle_take_add (idle_take_one rfl (by decide)) (idle_takeWhile (by decide) _)
  · simp

theorem idle_exponent (cs : List Char) : ∀ c ∈ cs.take (exponentLength cs), isIdle c = true := by
  fun_cases exponentLength cs with
  | case1 => simp
  | case2 => simp
  | case3 e cs he sign digits hdigits =>
    refine idle_take_add (idle_take_add (idle_take_one rfl ?_) ?_) ?_
    · rcases he with rfl | rfl <;> decide
    · rw [List.drop_succ_cons, List.drop_zero]
      cases cs with
      | nil => simp
      | cons s cs =>
        dsimp only [sign]
        split
        next hs => exact idle_take_one rfl (by rcases hs with rfl | rfl <;> decide)
        next => simp
    · rw [Nat.add_comm 1 sign, List.drop_succ_cons]
      exact idle_takeWhile (by decide) _
  | case4 => simp

/-- No literal of a number holds a character that means something to the scan. -/
theorem idle_number (cs : List Char) : ∀ c ∈ cs.take (numberForm cs).2, isIdle c = true := by
  have hbase : ∀ {d : Char}, isIdle d = true → cs.head? = some '0' → (cs.drop 1).head? = some d →
      ∀ c ∈ cs.take 2, isIdle c = true := fun hd hzero hsecond =>
    idle_take_add (m := 1) (idle_take_one hzero (by decide)) (idle_take_one hsecond hd)
  unfold numberForm
  dsimp only
  split
  next h =>
    refine idle_take_add ?_ (idle_takeWhile (by decide) _)
    rcases h.2.1 with hsecond | hsecond <;> exact hbase (by decide) h.1 hsecond
  split
  next h =>
    refine idle_take_add ?_ (idle_takeWhile (by decide) _)
    rcases h.2.1 with hsecond | hsecond <;> exact hbase (by decide) h.1 hsecond
  split
  next h => exact idle_take_add (idle_takeWhile (by decide) _) (idle_take_one h.2 (by decide))
  next => exact idle_take_add (idle_take_add (idle_takeWhile (by decide) _) (idle_fraction _)) (idle_exponent _)

end

/-! ## One token -/

namespace TemplateParts

/-- The texts and the holes of a template literal stand inside its span, and there is a text around every hole. -/
structure Placed (L : Locator) (span : Span) (parts : TemplateParts) : Prop where
  count : parts.texts.length = parts.holes.length + 1
  texts : ∀ text ∈ parts.texts, ∃ raw, L.Covers span.start span.stop text.span raw
  holes : ∀ hole ∈ parts.holes, L.Covers span.start span.stop hole.span hole.code

end TemplateParts

/-- A token stands where its span says, with all that is in it. -/
structure Token.Placed (L : Locator) (lo hi : Nat) (t : Token) : Prop where
  covers : ∃ text, L.Covers lo hi t.span text ∧ ∀ name, t.kind = .ident name → text = name.toList
  named : ∀ name, t.kind = .ident name → IsName name
  digits : ∀ digits, t.kind = .bigint digits → ∀ c ∈ digits.toList, RawTemplate.isIdle c = true
  parts : ∀ parts, t.kind = .template parts → parts.Placed L t.span

theorem Token.Placed.widen {L : Locator} {lo hi lo' hi' : Nat} {t : Token} (h : t.Placed L lo hi)
    (hlo : lo' ≤ lo) (hhi : hi ≤ hi') : t.Placed L lo' hi' := by
  obtain ⟨text, hcovers, hname⟩ := h.covers
  exact ⟨⟨text, hcovers.widen hlo hhi, hname⟩, h.named, h.digits, h.parts⟩

namespace Lexeme

open RawTemplate (tailChars)

variable {L : Locator}

/-- What is known of the parts of a literal after its head, which stand at `offset`. -/
structure TailPlaced (L : Locator) (offset stop : Nat) (texts : List TemplateText) (holes : List TemplateHole) :
    Prop where
  count : texts.length = holes.length
  texts : ∀ text ∈ texts, ∃ raw, L.Covers (clampOffset offset) (clampOffset stop) text.span raw
  holes : ∀ hole ∈ holes, L.Covers (clampOffset offset) (clampOffset stop) hole.span hole.code

theorem TailPlaced.widen {offset offset' stop : Nat} {texts : List TemplateText}
    (h : TailPlaced L offset stop texts holes) (hoffset : offset' ≤ offset) :
    TailPlaced L offset' stop texts holes where
  count := h.count
  texts text htext := by
    obtain ⟨raw, hcovers⟩ := h.texts text htext
    exact ⟨raw, hcovers.widen (clampOffset_mono hoffset) (Nat.le_refl _)⟩
  holes hole hhole := (h.holes hole hhole).widen (clampOffset_mono hoffset) (Nat.le_refl _)

/-- The bytes of a hole in its braces and of what follows. -/
theorem byteLength_tailChars (code raw : List Char) (tail : List (List Char × List Char)) :
    Text.byteLength (tailChars ((code, raw) :: tail))
      = 2 + Text.byteLength code + 1 + Text.byteLength raw + Text.byteLength (tailChars tail) := by
  have hdollar : '$'.utf8Size = 1 := rfl
  have hopening : '{'.utf8Size = 1 := rfl
  have hclosing : '}'.utf8Size = 1 := rfl
  simp only [tailChars, Text.byteLength_cons, Text.byteLength_append, hdollar, hopening, hclosing]
  omega

theorem placed_of_templateTail {offset stop : Nat} {tail : List (List Char × List Char)} {texts : List TemplateText}
    (h : templateTail offset tail = .ok (texts, holes))
    (hat : L.At offset (tailChars tail)) (hstop : offset + Text.byteLength (tailChars tail) ≤ stop) :
    TailPlaced L offset stop texts holes ∧ codeLength holes ≤ (tailChars tail).length := by
  induction tail generalizing offset texts holes with
  | nil =>
    cases h
    exact ⟨⟨rfl, List.forall_mem_nil _, List.forall_mem_nil _⟩, Nat.le_refl _⟩
  | cons piece tail ih =>
    obtain ⟨code, raw⟩ := piece
    rw [templateTail] at h
    split at h
    · cases h
    split at h
    · cases h
    rename_i htail
    cases h
    rw [byteLength_tailChars] at hstop
    -- An opening of two bytes, the code, a closing brace and the text, in this order.
    obtain ⟨hcode, hafter⟩ := L.split (L.split (s := ['$', '{']) hat).2
    obtain ⟨hraw, hrest⟩ := L.split (L.split (s := ['}']) hafter).2
    change L.At (offset + 2) code at hcode
    change L.At (offset + 2 + Text.byteLength code + 1) raw at hraw
    change L.At (offset + 2 + Text.byteLength code + 1 + Text.byteLength raw) (tailChars tail) at hrest
    obtain ⟨hplaced, hlength⟩ := ih htail hrest (by omega)
    have hplaced := hplaced.widen (show offset ≤ _ by omega)
    refine ⟨⟨congrArg (· + 1) hplaced.count, ?_, ?_⟩, ?_⟩
    · refine List.forall_mem_cons.mpr ⟨⟨raw, ?_⟩, hplaced.texts⟩
      exact Locator.covers_spanOf hraw (by omega) (by omega)
    · refine List.forall_mem_cons.mpr ⟨?_, hplaced.holes⟩
      exact Locator.covers_spanOf hcode (by omega) (by omega)
    · simp only [codeLength, tailChars, List.length_cons, List.length_append]
      omega

/-- A template literal as it is written, its backticks included. -/
def written (raw : RawTemplate) : List Char := '\x60' :: (raw.chars ++ ['\x60'])

theorem placed_of_templateParts {raw : RawTemplate} {parts : TemplateParts}
    (h : templateParts offset raw = .ok parts) (hat : L.At offset (written raw)) :
    parts.Placed L (spanOf offset (written raw)) ∧ codeLength parts.holes < (written raw).length := by
  rw [templateParts] at h
  split at h
  · cases h
  split at h
  · cases h
  rename_i htail
  cases h
  obtain ⟨hchars, -⟩ := L.split (L.split (s := ['\x60']) hat).2
  obtain ⟨hhead, htailAt⟩ := L.split hchars
  change L.At (offset + 1) raw.head at hhead
  change L.At (offset + 1 + Text.byteLength raw.head) (tailChars raw.tail) at htailAt
  have hbytes : Text.byteLength (written raw)
      = 1 + Text.byteLength raw.head + Text.byteLength (tailChars raw.tail) + 1 := by
    have hquote : '\x60'.utf8Size = 1 := rfl
    simp only [written, RawTemplate.chars, Text.byteLength_cons, Text.byteLength_append, Text.byteLength_nil, hquote]
    omega
  have hstop : offset + 1 + Text.byteLength raw.head + Text.byteLength (tailChars raw.tail)
      ≤ offset + Text.byteLength (written raw) := by omega
  obtain ⟨hplaced, hlength⟩ := placed_of_templateTail htail htailAt hstop
  have hplaced := hplaced.widen (show offset ≤ _ by omega)
  refine ⟨⟨congrArg (· + 1) hplaced.count, ?_, hplaced.holes⟩, ?_⟩
  · refine List.forall_mem_cons.mpr ⟨⟨raw.head, ?_⟩, hplaced.texts⟩
    exact Locator.covers_spanOf hhead (by omega) (by omega)
  · simp only [written, RawTemplate.chars, List.length_cons, List.length_append]
    omega

/-- What `read` says of the token it finds: it is not the end of file, a name is what was read, and so is
    a template literal; the digits of a number mean nothing to the scan of one. -/
structure Found (offset : Nat) (text : List Char) (kind : TokenKind) : Prop where
  ne_eof : kind ≠ .eof
  name : ∀ name, kind = .ident name → text = name.toList ∧ IsName name
  digits : ∀ digits, kind = .bigint digits → ∀ c ∈ digits.toList, RawTemplate.isIdle c = true
  parts : ∀ parts, kind = .template parts → ∃ raw, text = written raw ∧ raw.Sound .text [] ∧
    templateParts offset raw = .ok parts

/-- Whether a kind carries no name, digits or code, and is not the end of file. -/
def isPlain : TokenKind → Bool
  | .eof | .ident _ | .bigint _ | .template _ => false
  | _ => true

theorem found_of_isPlain (h : isPlain kind = true) :
    Found offset text kind where
  ne_eof := by
    rintro rfl
    cases h
  name := by
    rintro _ rfl
    cases h
  digits := by
    rintro _ rfl
    cases h
  parts := by
    rintro _ rfl
    cases h

/-- What a token is read from: `c` is the character at byte `offset`, `cs` what follows it. -/
inductive Reads (offset : Nat) (c : Char) (cs : List Char) : (extra : Nat) → TokenKind → Prop
  | number {kind : TokenKind} : c.isDigit ∨ c = '.' →
      number offset (numberForm (c :: cs)).1 ((c :: cs).take (numberForm (c :: cs)).2) = .ok kind →
      Reads offset c cs ((numberForm (c :: cs)).2 - 1) kind
  | string {length : Nat} {text : String} : c = '"' ∨ c = '\'' → stringLength c cs = (length, true) →
      Reads offset c cs length (.str text)
  | template {raw : RawTemplate} {rest : List Char} {parts : TemplateParts} : c = '\x60' →
      RawTemplate.read? cs = some (raw, rest) → templateParts offset raw = .ok parts →
      Reads offset c cs (cs.length - rest.length) (.template parts)
  | word : isWordStart c = true → Reads offset c cs (cs.takeWhile isWordPart).length
      (wordKind (String.ofList (c :: cs.takeWhile isWordPart)))
  | punct {p : Punct} : Punct.ofStart? (c :: cs) = some p → (c = '/' → cs.head? ∉ [some '/', some '*']) →
      Reads offset c cs (p.text.length - 1) (.punct p)

theorem ofExcept_eq_token {extra extra' : Nat} {r : Except LexError TokenKind}
    (h : ofExcept extra r = .token extra' kind) : r = .ok kind ∧ extra = extra' := by
  cases r with
  | error e => cases h
  | ok found =>
    cases h
    exact ⟨rfl, rfl⟩

theorem reads_of_read {offset extra : Nat}
    (h : read offset c cs = .token extra kind) : Reads offset c cs extra kind := by
  unfold read at h
  split at h
  · cases h
  split at h
  · cases h
  rename_i hline
  split at h
  · split at h <;> cases h
  rename_i hblock
  split at h
  next hnumber =>
    obtain ⟨hkind, rfl⟩ := ofExcept_eq_token h
    exact .number (hnumber.imp_right And.left) hkind
  split at h
  next hquote =>
    dsimp only at h
    split at h
    next hclosed =>
      split at h
      · cases h
        exact .string hquote (Prod.ext rfl hclosed)
      · cases h
    · cases h
  split at h
  next htick =>
    split at h
    · cases h
    · rename_i hread
      obtain ⟨hkind, rfl⟩ := ofExcept_eq_token h
      cases hparts : templateParts offset _ with
      | error e =>
        rw [hparts] at hkind
        cases hkind
      | ok parts =>
        rw [hparts] at hkind
        cases hkind
        exact .template htick hread hparts
  split at h
  next hc =>
    cases h
    exact .word hc
  · split at h
    next hstart =>
      cases h
      exact .punct hstart (by simp_all)
    · cases h

theorem number_cases {form : NumberForm}
    (h : number offset form text = .ok kind) :
    (∃ value, kind = .num value) ∨ ∃ digits, kind = .bigint (String.ofList digits) ∧ digits ⊆ text := by
  unfold number at h
  dsimp only at h
  split at h
  · rename_i hvalue
    cases h
    cases form with
    | bigint =>
      cases hvalue
      exact .inr ⟨_, rfl, fun c hc => (List.mem_filter.mp ((List.dropLast_sublist _).mem hc)).1⟩
    | _ =>
      obtain ⟨value, -, rfl⟩ := Option.map_eq_some_iff.mp hvalue
      exact .inl ⟨value, rfl⟩
  · cases h

theorem found_of_wordKind (hc : isWordStart c = true) :
    Found offset (c :: cs.takeWhile isWordPart) (wordKind (String.ofList (c :: cs.takeWhile isWordPart))) := by
  unfold wordKind
  split
  · exact found_of_isPlain rfl
  · rename_i hfree
    refine ⟨by rintro ⟨⟩, fun name hname => ?_, by rintro _ ⟨⟩, by rintro _ ⟨⟩⟩
    obtain rfl := TokenKind.ident.inj hname
    refine ⟨String.toList_ofList.symm, ⟨c, cs.takeWhile isWordPart, String.toList_ofList, hc, fun d hd => ?_⟩, hfree⟩
    exact List.all_eq_true.mp List.all_takeWhile d hd

/-- A template literal is read with its backticks. -/
theorem take_of_read? {cs rest : List Char} {raw : RawTemplate} (h : RawTemplate.read? cs = some (raw, rest)) :
    '\x60' :: cs.take (cs.length - rest.length) = written raw := by
  have hcs : cs = (raw.chars ++ ['\x60']) ++ rest := by simpa using RawTemplate.read?_eq h
  have hlength : cs.length - rest.length = (raw.chars ++ ['\x60']).length := by
    rw [hcs, List.length_append, Nat.add_sub_cancel]
  rw [hlength, hcs, List.take_left]
  rfl

theorem found_of_read {offset extra : Nat}
    (h : read offset c cs = .token extra kind) : Found offset (c :: cs.take extra) kind := by
  cases reads_of_read h with
  | number _ hkind =>
    rcases number_cases hkind with ⟨_, rfl⟩ | ⟨digits, rfl, hdigits⟩
    · exact found_of_isPlain rfl
    · refine ⟨by rintro ⟨⟩, by rintro _ ⟨⟩, ?_, by rintro _ ⟨⟩⟩
      rintro _ ⟨⟩ x hx
      rw [String.toList_ofList] at hx
      exact idle_number (c :: cs) x (hdigits hx)
  | string | punct => exact found_of_isPlain rfl
  | template htick hread hparts =>
    subst htick
    rw [take_of_read? hread]
    refine ⟨by rintro ⟨⟩, by rintro _ ⟨⟩, by rintro _ ⟨⟩,
      fun parts' hkind => ⟨_, rfl, (RawTemplate.read?_eq_some_iff.mp hread).1, ?_⟩⟩
    rw [hparts, TokenKind.template.inj hkind]
  | word hc =>
    have htake : cs.takeWhile isWordPart = cs.take (cs.takeWhile isWordPart).length :=
      List.prefix_iff_eq_take.mp (List.takeWhile_prefix _)
    rw [← htake]
    exact found_of_wordKind hc

/-- The token of a lexeme that stands at `offset`. -/
theorem placed_of_found {offset hi : Nat} {newlineBefore : Bool}
    (h : Found offset text kind) (hat : L.At offset text) (hhi : offset + Text.byteLength text ≤ hi) :
    Token.Placed L (clampOffset offset) (clampOffset hi) ⟨kind, spanOf offset text, newlineBefore⟩ where
  covers := ⟨text, Locator.covers_spanOf hat (Nat.le_refl _) hhi, fun name hkind => (h.name name hkind).1⟩
  named name hkind := (h.name name hkind).2
  digits := h.digits
  parts parts hkind := by
    obtain ⟨raw, rfl, -, hparts⟩ := h.parts parts hkind
    exact (placed_of_templateParts hparts hat).1

theorem weight_le_of_found
    (h : Found offset (c :: text) kind) : kind.weight ≤ (c :: text).length := by
  cases kind with
  | eof => exact absurd rfl h.ne_eof
  | template parts =>
    obtain ⟨raw, htext, -, hparts⟩ := h.parts parts rfl
    rw [htext, TokenKind.weight, Nat.add_comm]
    exact (placed_of_templateParts (L := .blind) hparts trivial).2
  | _ => exact Nat.le_add_left _ _

end Lexeme

/-! ## All tokens of a text -/

namespace Token

variable {L : Locator} {lo hi : Nat} {t : Token} {ts : List Token}

/-- Tokens in order from the offset `lo` on, up to the end of file. -/
inductive Laid (L : Locator) (hi : Nat) : (lo : Nat) → List Token → Prop
  | last {lo : Nat} {t : Token} : t.kind = .eof → t.Placed L lo hi → Laid L hi lo [t]
  | cons {lo : Nat} {t : Token} {ts : List Token} :
      t.kind ≠ .eof → t.Placed L lo hi → Laid L hi t.span.stop ts → Laid L hi lo (t :: ts)

theorem Laid.widen {lo' : Nat} (h : Laid L hi lo ts) (hlo : lo' ≤ lo) : Laid L hi lo' ts := by
  cases h with
  | last hkind hplaced => exact .last hkind (hplaced.widen hlo (Nat.le_refl _))
  | cons hkind hplaced hrest => exact .cons hkind (hplaced.widen hlo (Nat.le_refl _)) hrest

theorem laid_of_lexFrom {gap : Gap} {found tokens : Array Token}
    (h : lexFrom offset gap found cs = .ok tokens) (hat : L.At offset cs) :
    ∃ ts, tokens.toList = found.toList ++ ts ∧ weights ts ≤ cs.length ∧
      Laid L (clampOffset (offset + Text.byteLength cs)) (clampOffset offset) ts := by
  fun_induction lexFrom offset gap found cs with
  | case1 offset gap found =>
    cases h
    refine ⟨[⟨.eof, Lexeme.spanOf offset [], gap.lineFeed⟩], Array.toList_push, Nat.le_refl _,
      .last rfl ⟨?_, by rintro _ ⟨⟩, by rintro _ ⟨⟩, by rintro _ ⟨⟩⟩⟩
    exact ⟨[], Locator.covers_spanOf hat (Nat.le_refl _) (Nat.le_refl _), by rintro _ ⟨⟩⟩
  | case2 => cases h
  | case3 offset gap found c cs extra hread text ih =>
    have hsplit : c :: cs = text ++ cs.drop extra := by simp [text]
    rw [hsplit] at hat
    obtain ⟨ts, htokens, hweights, hlaid⟩ := ih h (L.split hat).2
    refine ⟨ts, htokens, ?_, ?_⟩
    · rw [hsplit, List.length_append]
      omega
    · rw [hsplit, Text.byteLength_append, ← Nat.add_assoc]
      exact hlaid.widen (clampOffset_mono (Nat.le_add_right _ _))
  | case4 offset gap found c cs extra kind hread text token ih =>
    have hsplit : c :: cs = text ++ cs.drop extra := by simp [text]
    have hfound := Lexeme.found_of_read hread
    have hweight : kind.weight ≤ text.length := Lexeme.weight_le_of_found hfound
    rw [hsplit] at hat
    obtain ⟨htext, hrest⟩ := L.split hat
    obtain ⟨ts, htokens, hweights, hlaid⟩ := ih h hrest
    refine ⟨token :: ts, ?_, ?_, .cons hfound.ne_eof ?_ ?_⟩
    · rw [htokens, Array.toList_push, List.append_assoc]
      rfl
    · rw [hsplit, List.length_append, weights]
      change kind.weight + weights ts ≤ _
      omega
    · refine Lexeme.placed_of_found hfound htext ?_
      rw [hsplit, Text.byteLength_append, ← Nat.add_assoc]
      exact Nat.le_add_right _ _
    · rw [hsplit, Text.byteLength_append, ← Nat.add_assoc]
      exact hlaid

/-- The tokens of a text stand in order inside it, and weigh no more than it is long. -/
theorem laid_of_lexAt {base : Nat} {tokens : Array Token}
    (h : lexAt base text = .ok tokens) (hat : L.At base text) :
    weights tokens.toList ≤ text.length ∧
      Laid L (clampOffset (base + Text.byteLength text)) (clampOffset base) tokens.toList := by
  obtain ⟨ts, htokens, hweights, hlaid⟩ := laid_of_lexFrom h hat
  rw [htokens]
  exact ⟨hweights, hlaid⟩

end Token

end MatchChain
