import MatchChain.Proofs.Token.Shift

/-!
# The tokens of a text tile it

Between tokens there are blanks: separators, comments up to the end of their line and comments up to where
they are closed. `Tiled` cuts a text into gaps of blanks and the texts of tokens, one after the other, and
each step of the lexer adds a blank or a token to what is cut already (`tiled_of_lexFrom`). `Tiling` says the
same by positions: of the spans of the tokens, and of the slices of the source between them.
-/

set_option autoImplicit false

namespace MatchChain

variable {cs : List Char} {before : List Char}

open Text

/-! ## Blanks -/

/-- A blank before the text `next`. -/
inductive BlankPiece : (text next : List Char) → Prop
  | separator {c : Char} {next : List Char} : c ∈ [' ', '\t', '\r', '\n', '\x0c'] → BlankPiece [c] next
  /-- A comment that ends with its line, or with the text. -/
  | lineComment {body next : List Char} : '\n' ∉ body → (∀ c ∈ next.head?, c = '\n') →
      BlankPiece ('/' :: '/' :: body) next
  /-- A comment that ends at the first place that closes it. -/
  | blockComment {body next : List Char} : ¬ ['*', '/'] <:+: body →
      BlankPiece ('/' :: '*' :: (body ++ ['*', '/'])) next

/-- Blanks one after another, before the text `next`. -/
inductive Blank : (gap next : List Char) → Prop
  | nil {next : List Char} : Blank [] next
  | cons {text gap next : List Char} : BlankPiece text (gap ++ next) → Blank gap next → Blank (text ++ gap) next

theorem commentLength?_eq_some {n : Nat} (h : commentLength? cs = some n) :
    ∃ body rest, cs = body ++ (['*', '/'] ++ rest) ∧ n = body.length + 2 ∧ ¬ ['*', '/'] <:+: body := by
  fun_induction commentLength? cs generalizing n with
  | case1 => cases h
  | case2 rest =>
    cases h
    exact ⟨[], rest, rfl, rfl, by simp⟩
  | case3 c cs hclose ih =>
    obtain ⟨k, hk, rfl⟩ := Option.map_eq_some_iff.mp h
    obtain ⟨body, rest, hcs, hlength, hopen⟩ := ih hk
    refine ⟨c :: body, rest, by rw [hcs]; rfl, by rw [hlength]; rfl, ?_⟩
    intro hinfix
    rcases List.infix_cons_iff.mp hinfix with hprefix | hinner
    · -- the comment would have been closed one character earlier
      obtain ⟨tail, htail⟩ := hprefix
      obtain ⟨rfl, rfl⟩ := List.cons.inj htail
      exact hclose (tail ++ (['*', '/'] ++ rest)) rfl hcs
    · exact hopen hinner

namespace Lexeme

theorem blankPiece_of_read {offset extra : Nat} {c : Char}
    (h : read offset c cs = .skip extra) : BlankPiece (c :: cs.take extra) (cs.drop extra) := by
  have hnone : ∀ (n : Nat) (r : Except LexError TokenKind), ofExcept n r ≠ .skip extra := by
    intro n r
    cases r <;> simp [ofExcept]
  unfold read at h
  split at h
  next hseparator =>
    cases h
    refine .separator ?_
    simpa [isSeparator, or_assoc] using hseparator
  split at h
  next hline =>
    cases h
    obtain ⟨rfl, hhead⟩ := hline
    obtain ⟨cs, rfl⟩ : ∃ tail, cs = '/' :: tail := List.head?_eq_some_iff.mp hhead
    have htake : cs.take (cs.takeWhile (· != '\n')).length = cs.takeWhile (· != '\n') :=
      (List.prefix_iff_eq_take.mp (List.takeWhile_prefix _)).symm
    have hdrop : cs.drop (cs.takeWhile (· != '\n')).length = cs.dropWhile (· != '\n') := by
      have hboth : cs.take (cs.takeWhile (· != '\n')).length ++ cs.dropWhile (· != '\n') = cs := by
        rw [htake, List.takeWhile_append_dropWhile]
      exact List.append_cancel_left ((List.take_append_drop _ cs).trans hboth.symm)
    have hslash : ('/' :: cs).takeWhile (· != '\n') = '/' :: cs.takeWhile (· != '\n') := rfl
    rw [hslash, List.length_cons, List.take_succ_cons, List.drop_succ_cons, htake, hdrop]
    refine .lineComment ?_ ?_
    · intro hmem
      simpa using List.all_eq_true.mp List.all_takeWhile _ hmem
    · intro c hc
      have hnot := List.head?_dropWhile_not (· != '\n') cs
      rw [Option.mem_def.mp hc] at hnot
      simpa using hnot
  split at h
  next hblock =>
    obtain ⟨rfl, hhead⟩ := hblock
    obtain ⟨cs, rfl⟩ : ∃ tail, cs = '*' :: tail := List.head?_eq_some_iff.mp hhead
    split at h
    next n hlength =>
      cases h
      obtain ⟨body, rest, hcs, rfl, hopen⟩ := commentLength?_eq_some hlength
      obtain rfl : cs = (body ++ ['*', '/']) ++ rest := by rw [List.append_assoc]; exact hcs
      have hcount : 1 + (body.length + 2) = (body ++ ['*', '/']).length + 1 := by
        rw [List.length_append, List.length_cons, List.length_cons, List.length_nil]
        omega
      rw [hcount, List.take_succ_cons, List.drop_succ_cons, List.take_left, List.drop_left]
      exact .blockComment hopen
    · cases h
  split at h
  · exact absurd h (hnone _ _)
  split at h
  · dsimp only at h
    split at h
    · split at h <;> cases h
    · cases h
  split at h
  · split at h
    · cases h
    · exact absurd h (hnone _ _)
  split at h
  · cases h
  · split at h <;> cases h

end Lexeme

/-! ## Gaps and tokens -/

/-- A text in pieces: gaps of blanks and the texts of tokens, in turn. The text starts at byte `offset`, and
    `seen` tells of the gap before the first token what stands before that. -/
inductive Tiled : (seen : Gap) → (offset : Nat) → List Char → List Token → Prop
  | last {seen : Gap} {offset : Nat} {gap : List Char} : Blank gap [] →
      Tiled seen offset gap [⟨.eof, ⟨offset + byteLength gap, offset + byteLength gap⟩, (seen.over gap).lineFeed⟩]
  | cons {seen : Gap} {offset : Nat} {gap text rest : List Char} {kind : TokenKind} {ts : List Token} :
      Blank gap (text ++ rest) → text ≠ [] → kind ≠ .eof →
      Tiled {} (offset + byteLength gap + byteLength text) rest ts →
      Tiled seen offset (gap ++ (text ++ rest))
        (⟨kind, ⟨offset + byteLength gap, offset + byteLength gap + byteLength text⟩, (seen.over gap).lineBreak⟩ :: ts)

theorem Gap.over_append (seen : Gap) (cs ds : List Char) : seen.over (cs ++ ds) = (seen.over cs).over ds := by
  simp [Gap.over, Bool.or_assoc]

namespace Tiled

/-- A blank before a text in pieces belongs to the first gap. -/
theorem skip {seen : Gap} {offset : Nat} {text rest : List Char} {ts : List Token} (hblank : BlankPiece text rest)
    (h : Tiled (seen.over text) (offset + byteLength text) rest ts) : Tiled seen offset (text ++ rest) ts := by
  cases h with
  | last hgap =>
    have hlast : Tiled seen offset (text ++ rest) _ := .last (.cons (by simpa using hblank) hgap)
    rw [byteLength_append, ← Nat.add_assoc, Gap.over_append] at hlast
    exact hlast
  | @cons _ _ gap body rest kind ts hgap hne hkind hrest =>
    rw [Nat.add_assoc offset, ← byteLength_append, ← Gap.over_append, ← List.append_assoc]
    refine .cons (.cons hblank hgap) hne hkind ?_
    rw [byteLength_append, ← Nat.add_assoc]
    exact hrest

end Tiled

theorem Lexeme.spanOf_eq {offset : Nat} (h : offset + byteLength cs ≤ maxOffset) :
    spanOf offset cs = ⟨offset, offset + byteLength cs⟩ := by
  simp only [spanOf, clampOffset, Span.mk.injEq]
  omega

theorem Token.tiled_of_lexFrom {offset : Nat} {gap : Gap} {found tokens : Array Token}
    (h : lexFrom offset gap found cs = .ok tokens) (hfits : offset + byteLength cs ≤ maxOffset) :
    ∃ ts, tokens.toList = found.toList ++ ts ∧ Tiled gap offset cs ts := by
  fun_induction lexFrom offset gap found cs with
  | case1 offset gap found =>
    cases h
    refine ⟨_, Array.toList_push, ?_⟩
    rw [Lexeme.spanOf_eq hfits]
    have hlast : Tiled gap offset [] _ := .last .nil
    simpa [Gap.over] using hlast
  | case2 => cases h
  | case3 offset gap found c cs extra hread text ih =>
    have hsplit : c :: cs = text ++ cs.drop extra := by simp [text]
    rw [hsplit, byteLength_append] at hfits
    obtain ⟨ts, htokens, htiled⟩ := ih h (by omega)
    refine ⟨ts, htokens, ?_⟩
    rw [hsplit]
    exact htiled.skip (Lexeme.blankPiece_of_read hread)
  | case4 offset gap found c cs extra kind hread text token ih =>
    have hsplit : c :: cs = text ++ cs.drop extra := by simp [text]
    rw [hsplit, byteLength_append] at hfits
    obtain ⟨ts, htokens, htiled⟩ := ih h (by omega)
    refine ⟨token :: ts, ?_, ?_⟩
    · rw [htokens, Array.toList_push, List.append_assoc]
      rfl
    · have htoken : token = ⟨kind, ⟨offset, offset + byteLength text⟩, gap.lineBreak⟩ := by
        rw [← Lexeme.spanOf_eq (by omega)]
      have hcons : Tiled gap offset ([] ++ (text ++ cs.drop extra)) _ :=
        .cons .nil (List.cons_ne_nil _ _) (Lexeme.found_of_read hread).ne_eof htiled
      rw [hsplit, htoken]
      simpa [Gap.over] using hcons

/-! ## By positions -/

namespace Token

/-- Where the token before the `i`-th one ends; the first one comes after the byte `start`. -/
def stopBefore (start : Nat) : List Token → Nat → Nat
  | t :: ts, i + 1 => stopBefore t.span.stop ts i
  | _, _ => start

/-- From a byte of a source on there are blanks up to a token, and the token knows whether they break the
    line. The end of file knows it of line feeds. -/
def AfterBlanks (source : List Char) (start : Nat) (t : Token) : Prop :=
  ∃ gap next, sliceBytes? start t.span.start source = some gap ∧ dropBytes? t.span.start source = some next ∧
    Blank gap next ∧ (t.kind ≠ .eof → (t.newlineBefore = true ↔ ∃ c ∈ gap, c ∈ ['\n', '\r', '\u2028', '\u2029'])) ∧
    (t.kind = .eof → (t.newlineBefore = true ↔ '\n' ∈ gap))

/-- Tokens fill a source text: they stand in order and do not overlap, and what is not in them is blank. -/
structure Tiling (source : List Char) (tokens : List Token) : Prop where
  ordered : tokens.Pairwise fun a b => a.span.stop ≤ b.span.start
  /-- Both ends of every span are boundaries of characters. -/
  sliced : ∀ t ∈ tokens, ∃ text, sliceBytes? t.span.start t.span.stop source = some text
  filled : ∀ t ∈ tokens.dropLast, t.kind ≠ .eof ∧ t.span.start < t.span.stop
  ended : ∃ t, tokens.getLast? = some t ∧ t.kind = .eof ∧ t.span = ⟨byteLength source, byteLength source⟩
  gaps : ∀ (i : Nat) (t : Token), tokens[i]? = some t → t.AfterBlanks source (stopBefore 0 tokens i)

end Token

namespace Tiled

open Token (stopBefore)

variable {source : List Char} {seen : Gap} {offset : Nat} {cs : List Char} {ts : List Token}

theorem le_start (h : Tiled seen offset cs ts) : ∀ t ∈ ts, offset ≤ t.span.start := by
  induction h with
  | last => simp
  | cons _ _ _ _ ih =>
    refine List.forall_mem_cons.mpr ⟨Nat.le_add_right _ _, fun t ht => ?_⟩
    have := ih t ht
    omega

theorem ordered (h : Tiled seen offset cs ts) : ts.Pairwise fun a b => a.span.stop ≤ b.span.start := by
  induction h with
  | last => exact List.pairwise_singleton ..
  | cons _ _ _ hrest ih => exact .cons hrest.le_start ih

theorem ne_nil (h : Tiled seen offset cs ts) : ts ≠ [] := by cases h <;> exact List.cons_ne_nil _ _

theorem byteLength_pos {text : List Char} (h : text ≠ []) : 0 < byteLength text :=
  Nat.pos_of_ne_zero fun hzero => h (eq_nil_of_byteLength hzero)

theorem filled (h : Tiled seen offset cs ts) : ∀ t ∈ ts.dropLast, t.kind ≠ .eof ∧ t.span.start < t.span.stop := by
  induction h with
  | last => simp
  | cons _ hne hkind hrest ih =>
    rw [List.dropLast_cons_of_ne_nil hrest.ne_nil]
    exact List.forall_mem_cons.mpr ⟨⟨hkind, Nat.lt_add_of_pos_right (byteLength_pos hne)⟩, ih⟩

theorem ended (h : Tiled seen offset cs ts) : ∃ t, ts.getLast? = some t ∧ t.kind = .eof ∧
    t.span = ⟨offset + byteLength cs, offset + byteLength cs⟩ := by
  induction h with
  | last => exact ⟨_, rfl, rfl, rfl⟩
  | cons _ _ _ hrest ih =>
    obtain ⟨t, hlast, hkind, hspan⟩ := ih
    refine ⟨t, ?_, hkind, ?_⟩
    · rw [List.getLast?_cons_of_ne_nil hrest.ne_nil, hlast]
    · rw [hspan, byteLength_append, byteLength_append, Nat.add_assoc, Nat.add_assoc]

theorem byteLength_passed (h : byteLength before = offset) (gap text : List Char) :
    byteLength (before ++ (gap ++ text)) = offset + byteLength gap + byteLength text := by
  rw [byteLength_append, byteLength_append, h, ← Nat.add_assoc]

theorem sliced (h : Tiled seen offset cs ts) (hbefore : byteLength before = offset) :
    ∀ t ∈ ts, ∃ text, sliceBytes? t.span.start t.span.stop (before ++ cs) = some text := by
  induction h generalizing before with
  | @last _ _ gap hgap =>
    intro t ht
    obtain rfl := List.mem_singleton.mp ht
    have hslice := sliceBytes?_append (before ++ gap) [] []
    rw [byteLength_append, hbefore] at hslice
    exact ⟨[], by simpa using hslice⟩
  | @cons _ _ gap text rest kind ts hgap hne hkind hrest ih =>
    refine List.forall_mem_cons.mpr ⟨⟨text, ?_⟩, ?_⟩
    · have hslice := sliceBytes?_append (before ++ gap) text rest
      rw [byteLength_append, hbefore, List.append_assoc] at hslice
      exact hslice
    · have hpassed := ih (byteLength_passed hbefore gap text)
      simpa using hpassed

theorem lineBreak_over_iff (gap : List Char) : (({} : Gap).over gap).lineBreak = true ↔
    ∃ c ∈ gap, c ∈ ['\n', '\r', '\u2028', '\u2029'] := by
  simp [Gap.over, isLineBreak, or_assoc]

theorem lineFeed_over_iff (gap : List Char) : (({} : Gap).over gap).lineFeed = true ↔ '\n' ∈ gap := by
  simp [Gap.over]

theorem afterBlanks {before gap next : List Char} {t : Token} (hbefore : byteLength before = offset)
    (hstart : t.span.start = offset + byteLength gap) (hblank : Blank gap next)
    (hbreak : t.kind ≠ .eof → t.newlineBefore = (({} : Gap).over gap).lineBreak)
    (hfeed : t.kind = .eof → t.newlineBefore = (({} : Gap).over gap).lineFeed) :
    t.AfterBlanks (before ++ (gap ++ next)) offset := by
  refine ⟨gap, next, ?_, ?_, hblank, fun hkind => ?_, fun hkind => ?_⟩
  · rw [hstart, ← hbefore]
    exact sliceBytes?_append before gap next
  · rw [hstart, ← hbefore, ← byteLength_append, ← List.append_assoc]
    exact dropBytes?_append (before ++ gap) next
  · rw [hbreak hkind]
    exact lineBreak_over_iff gap
  · rw [hfeed hkind]
    exact lineFeed_over_iff gap

theorem gaps (h : Tiled seen offset cs ts) (hseen : seen = {})
    (hbefore : byteLength before = offset) (i : Nat) (t : Token) (ht : ts[i]? = some t) :
    t.AfterBlanks (before ++ cs) (stopBefore offset ts i) := by
  induction h generalizing before i with
  | @last _ _ gap hgap =>
    subst hseen
    cases i with
    | zero =>
      cases ht
      have hsource : before ++ gap = before ++ (gap ++ []) := by rw [List.append_nil]
      rw [hsource]
      exact afterBlanks hbefore rfl hgap (fun hkind => absurd rfl hkind) fun _ => rfl
    | succ i => simp at ht
  | @cons _ offset gap text rest kind ts hgap hne hkind hrest ih =>
    subst hseen
    cases i with
    | zero =>
      cases ht
      exact afterBlanks hbefore rfl hgap (fun _ => rfl) fun heof => absurd heof hkind
    | succ i =>
      have hafter := ih rfl (byteLength_passed hbefore gap text) i ht
      rw [List.append_assoc, List.append_assoc] at hafter
      exact hafter

end Tiled

namespace Token

/-- Tokens tile the text that they were read from, and a text that starts elsewhere in its file has the same
    tokens, or the same error, with spans shifted there. -/
theorem lex_tiles {source : String} (hlength : byteLength source.toList < 4294967296) :
    (∀ tokens, lex source = .ok tokens → Tiling source.toList tokens.toList) ∧
    ∀ base, base + byteLength source.toList < 4294967296 →
      lexAt base source.toList = shiftResult base (·.map (·.shift base)) (lex source) := by
  constructor
  · intro tokens h
    obtain ⟨ts, htokens, htiled⟩ := tiled_of_lexFrom h (by rw [Nat.zero_add]; exact Nat.le_of_lt_succ hlength)
    obtain rfl : tokens.toList = ts := htokens
    have hnone : byteLength [] = 0 := rfl
    refine ⟨htiled.ordered, htiled.sliced hnone, htiled.filled, ?_, htiled.gaps rfl hnone⟩
    obtain ⟨t, hlast, hkind, hspan⟩ := htiled.ended
    exact ⟨t, hlast, hkind, by rw [hspan, Nat.zero_add]⟩
  · intro base hbase
    exact lexAt_shift (Nat.le_of_lt_succ hbase)

/-- Comments of both kinds, letters of two bytes and a template literal with code. -/
def commentedTokens : String := "'é' /* ü\n */ + `é$\x7bx /**/\x7d` // \u2028 c\n; z"

theorem lex_tiles_commentedTokens :
    (∃ tokens, lex commentedTokens = .ok tokens ∧ tokens.size = 6 ∧
      Tiling commentedTokens.toList tokens.toList) ∧
    lexAt 9 commentedTokens.toList = shiftResult 9 (·.map (·.shift 9)) (lex commentedTokens) := by
  have hlength : byteLength commentedTokens.toList < 4294967296 := by decide +kernel
  have hread : (lex commentedTokens).toOption.any (fun tokens => tokens.size == 6) = true := by decide +kernel
  obtain ⟨htiling, hshift⟩ := lex_tiles hlength
  refine ⟨?_, hshift 9 (by decide +kernel)⟩
  cases h : lex commentedTokens with
  | error e =>
    rw [h] at hread
    cases hread
  | ok tokens =>
    rw [h] at hread
    exact ⟨tokens, rfl, beq_iff_eq.mp hread, htiling tokens h⟩

end Token

end MatchChain
