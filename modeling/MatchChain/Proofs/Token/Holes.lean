import MatchChain.Proofs.Token.Tiling

/-!
# The code in the holes of a template literal

The end of a hole is found by a scan that knows strings, comments, braces and nested literals, but no tokens.
On code that has tokens the scan goes over each of them as a whole, and counts the braces among them
(`depth_of_lexFrom`). So the braces of the code in a hole are balanced, whatever the code is.
-/

set_option autoImplicit false

namespace MatchChain

variable {offset : Nat} {raw : RawTemplate}

open RawTemplate Text

variable {mode mode' mode'' : Mode} {stack stack' stack'' : List Nat} {depth depth' : Nat} {c d : Char}
  {cs rest : List Char} {next : Option Char}

/-! ## What the scan goes over -/

namespace RawTemplate

theorem Passes.one (hstep : step mode stack c (cs.head?.or next) = some (0, mode', stack'))
    (hstays : Stays stack mode' stack') (h : Passes mode' stack' cs next mode'' stack'') :
    Passes mode stack (c :: cs) next mode'' stack'' :=
  .cons hstep (Nat.zero_le _) hstays h

theorem Passes.two (hstep : step mode stack c (some d) = some (1, mode', stack'))
    (hstays : Stays stack mode' stack') (h : Passes mode' stack' cs next mode'' stack'') :
    Passes mode stack (c :: d :: cs) next mode'' stack'' :=
  .cons hstep (Nat.le_add_left 1 _) hstays h

/-- Inside a hole a step stays there as long as it does not close it. -/
theorem stays_cons : Stays (depth :: stack) mode (depth' :: stack') :=
  ⟨by simp, .inr (List.cons_ne_nil _ _)⟩

theorem passes_idle (h : ∀ c ∈ cs, isIdle c = true) : Passes .code (depth :: stack) cs next .code (depth :: stack) := by
  induction cs with
  | nil => exact .nil
  | cons c cs ih =>
    obtain ⟨hc, hcs⟩ := List.forall_mem_cons.mp h
    refine .one (step_code ?_ ?_) stays_cons (ih hcs) <;> simp_all [isIdle, marks]

theorem passes_string {quote : Char} {length : Nat} (h : stringLength quote cs = (length, true))
    (hquote : quote = '"' ∨ quote = '\'') :
    Passes (.string quote) (depth :: stack) (cs.take length) next .code (depth :: stack) := by
  fun_induction stringLength quote cs generalizing length with
  | case1 => cases h
  | case2 c cs n closed hlength ih =>
    cases h
    rw [List.take_succ_cons, List.take_succ_cons]
    exact .two rfl stays_cons (ih hlength)
  | case3 cs =>
    cases h
    refine .one ?_ stays_cons .nil
    rcases hquote with rfl | rfl <;> simp [step]
  | case4 => cases h
  | case5 c cs _ hne hplain n closed hlength ih =>
    cases h
    rw [List.take_succ_cons]
    refine .one ?_ stays_cons (ih hlength)
    simp only [not_or] at hplain
    simp [step, hne, hplain]

theorem passes_lineComment (h : '\n' ∉ cs) :
    Passes .lineComment (depth :: stack) cs next .lineComment (depth :: stack) := by
  induction cs with
  | nil => exact .nil
  | cons c cs ih =>
    obtain ⟨hc, hcs⟩ := not_or.mp (mt List.mem_cons.mpr h)
    exact .one (by simp [step, Ne.symm hc]) stays_cons (ih hcs)

theorem passes_blockComment (h : ¬ ['*', '/'] <:+: cs) :
    Passes .blockComment (depth :: stack) (cs ++ ['*', '/']) next .code (depth :: stack) := by
  induction cs with
  | nil => exact .two rfl stays_cons .nil
  | cons c cs ih =>
    have hopen : c = '*' → (cs ++ ['*', '/']).head? ≠ some '/' := by
      rintro rfl hhead
      cases cs with
      | nil => cases hhead
      | cons d cs =>
        cases hhead
        exact h ⟨[], cs, rfl⟩
    refine .one ?_ stays_cons (ih fun hinner => h (hinner.trans (List.infix_cons (List.infix_refl cs))))
    have hstar : ¬ (c = '*' ∧ ((cs ++ ['*', '/']).head?.or next) = some '/') := by
      rintro ⟨hc, hhead⟩
      exact hopen hc (by simpa [List.head?_append] using hhead)
    exact if_neg hstar

/-- A literal in a hole is gone over as a whole. -/
theorem Sound.passes {outer : List Nat} (h : Sound mode stack raw) (hinside : Inside mode stack)
    (houter : outer ≠ []) :
    Passes mode (stack ++ outer) (raw.charsFrom stack ++ ['\x60']) next .code outer := by
  obtain ⟨depth, outer, rfl⟩ := List.exists_cons_of_ne_nil houter
  induction h with
  | last htext =>
    rw [charsFrom_last]
    exact (htext.enclosed hinside houter).append (.one rfl stays_cons .nil)
  | opens htext _ ih =>
    rw [charsFrom_opens, List.append_assoc]
    exact (htext.enclosed hinside houter).append (.two rfl stays_cons (ih (.inr (List.cons_ne_nil _ _))))
  | closes hcode _ ih =>
    rw [charsFrom_closes, List.append_assoc]
    exact (hcode.enclosed hinside houter).append (.one rfl stays_cons (ih (.inl rfl)))

end RawTemplate

/-! ## Tokens -/

/-- How many braces are open after a token, if it does not close one that is not open. -/
def TokenKind.depthAfter? (depth : Nat) : TokenKind → Option Nat
  | .punct .lbrace => some (depth + 1)
  | .punct .rbrace => if depth = 0 then none else some (depth - 1)
  | _ => some depth

/-- How many braces are open after tokens, if none of them closes one that is not open. -/
def Token.depthAfter? (depth : Nat) : List Token → Option Nat
  | [] => some depth
  | t :: ts => (t.kind.depthAfter? depth).bind fun depth' => depthAfter? depth' ts

/-- The braces among tokens are balanced. -/
def Token.Balanced (ts : List Token) : Prop := depthAfter? 0 ts = some 0

namespace Lexeme

variable {offset extra : Nat} {kind : TokenKind}

/-- Punctuation is what stands at the place where it is found. -/
theorem text_of_ofStart? {p : Punct} (h : Punct.ofStart? (c :: cs) = some p) :
    p.text.toList = c :: cs.take (p.text.length - 1) := by
  have hfits := List.find?_some (show Punct.all.find? (fun p => p.text.toList.isPrefixOf (c :: cs)) = some p from h)
  have hne : ∀ p ∈ Punct.all, p.text.toList.length ≠ 0 := by decide
  obtain ⟨n, hn⟩ := Nat.exists_eq_succ_of_ne_zero (hne p p.mem_all)
  rw [List.prefix_iff_eq_take.mp (List.isPrefixOf_iff_prefix.mp hfits), ← String.length_toList, hn]
  rfl

theorem passes_punct {p : Punct} (h : Punct.ofStart? (c :: cs) = some p)
    (hslash : c = '/' → cs.head?.or next ∉ [some '/', some '*'])
    (hdepth : (TokenKind.punct p).depthAfter? depth = some depth') :
    Passes .code (depth :: stack) (c :: cs.take (p.text.length - 1))
      ((cs.drop (p.text.length - 1)).head?.or next) .code (depth' :: stack) := by
  have htext := text_of_ofStart? h
  have htail : ∀ p ∈ Punct.all, p.text.toList.tail.all isIdle = true := by decide
  have hrest : ∀ c ∈ cs.take (p.text.length - 1), isIdle c = true := by
    have hp := htail p p.mem_all
    rw [htext] at hp
    exact List.all_eq_true.mp hp
  refine .one ?_ stays_cons (passes_idle hrest)
  rw [← Option.or_assoc, ← List.head?_append, List.take_append_drop]
  by_cases hbrace : p = .lbrace ∨ p = .rbrace
  · rcases hbrace with rfl | rfl
    · cases hdepth
      cases htext
      rfl
    · cases depth with
      | zero => cases hdepth
      | succ depth =>
        cases hdepth
        cases htext
        rfl
  · have hhead : ∀ p ∈ Punct.all, p ≠ .lbrace → p ≠ .rbrace →
        p.text.toList.head?.all (fun c => !(['{', '}', '"', '\'', '\x60'] : List Char).contains c) = true := by decide
    have hp := hhead p p.mem_all (fun h => hbrace (.inl h)) fun h => hbrace (.inr h)
    rw [htext] at hp
    have hsame : (TokenKind.punct p).depthAfter? depth = some depth := by
      unfold TokenKind.depthAfter?
      split <;> simp_all
    cases hsame.symm.trans hdepth
    exact step_code (by simpa using hp) hslash

/-- The scan goes over a token as a whole. -/
theorem Reads.passes (h : Reads offset c cs extra kind) (hnext : next ∉ [some '/', some '*'])
    (hdepth : kind.depthAfter? depth = some depth') :
    Passes .code (depth :: stack) (c :: cs.take extra) ((cs.drop extra).head?.or next) .code (depth' :: stack) := by
  cases h with
  | number hc hkind =>
    obtain rfl : depth = depth' := by
      rcases number_cases hkind with ⟨_, rfl⟩ | ⟨_, rfl, -⟩ <;> exact Option.some.inj hdepth
    have hidle : isIdle c = true := by
      rcases hc with hc | rfl
      · exact isIdle_of hc (by decide)
      · decide
    refine passes_idle (List.forall_mem_cons.mpr ⟨hidle, fun d hd => idle_number (c :: cs) d ?_⟩)
    cases hlength : (numberForm (c :: cs)).2 with
    | zero => simp [hlength] at hd
    | succ n =>
      rw [hlength, Nat.add_sub_cancel] at hd
      exact List.mem_cons_of_mem c hd
  | string hquote hlength =>
    cases hdepth
    refine .one ?_ stays_cons (passes_string hlength hquote)
    rcases hquote with rfl | rfl <;> rfl
  | template htick hread hparts =>
    cases hdepth
    subst htick
    have hsound := (read?_eq_some_iff.mp hread).1
    rw [take_of_read? hread]
    exact .one rfl stays_cons (hsound.passes (.inl rfl) (List.cons_ne_nil _ _))
  | word hc =>
    obtain rfl : depth = depth' := by
      unfold wordKind at hdepth
      split at hdepth <;> exact Option.some.inj hdepth
    exact passes_idle (List.forall_mem_cons.mpr ⟨isIdle_of hc (by decide), idle_takeWhile (by decide) _⟩)
  | punct hstart hslash =>
    refine passes_punct hstart (fun hc => ?_) hdepth
    cases cs with
    | nil => exact hnext
    | cons d cs => exact hslash hc

theorem Reads.eq_rbrace (h : Reads offset c cs extra (.punct .rbrace)) : c = '}' := by
  generalize hkind : TokenKind.punct .rbrace = kind at h
  cases h with
  | number _ hnumber => rcases number_cases hnumber with ⟨_, rfl⟩ | ⟨_, rfl, -⟩ <;> cases hkind
  | string | template => cases hkind
  | word =>
    unfold wordKind at hkind
    split at hkind <;> cases hkind
  | punct hstart =>
    cases hkind
    exact (List.cons.inj (text_of_ofStart? hstart)).1.symm

end Lexeme

/-! ## Code in a hole -/

/-- From this text on the scan reaches the brace that closes the hole. -/
def Closes (depth : Nat) (cs : List Char) : Prop := Passes .code [depth] cs (some '}') .code [0]

/-- A brace that is not open closes the hole. -/
theorem Closes.depth_ne_zero (h : Closes depth ('}' :: cs)) : depth ≠ 0 := by
  rintro rfl
  cases h with
  | cons hstep _ hstays _ =>
    cases hstep
    cases hstays.same.mpr rfl

/-- A blank changes nothing. After a comment up to the end of its line the hole cannot end, so the line does. -/
theorem Closes.blank {text : List Char} (h : Closes depth (text ++ rest)) (hblank : BlankPiece text rest) :
    Closes depth rest := by
  cases hblank with
  | @separator c _ hc =>
    refine h.rest_of_append (passes_idle (List.forall_mem_singleton.mpr (isIdle_of (p := isSeparator) ?_ (by decide))))
    simpa [isSeparator, or_assoc] using hc
  | @lineComment body _ hbody hnext =>
    have hrest := h.rest_of_append (.two rfl stays_cons (passes_lineComment hbody))
    cases hrest with
    | @cons _ _ _ _ _ _ c cs _ _ hstep _ _ hrest =>
      obtain rfl := hnext c rfl
      cases hstep
      exact .one rfl stays_cons hrest
  | blockComment hopen => exact h.rest_of_append (.two rfl stays_cons (passes_blockComment hopen))

theorem Closes.token {offset extra : Nat} {kind : TokenKind} (h : Closes depth (c :: cs))
    (hread : Lexeme.read offset c cs = .token extra kind) :
    ∃ depth', kind.depthAfter? depth = some depth' ∧ Closes depth' (cs.drop extra) := by
  have hreads := Lexeme.reads_of_read hread
  have hdepth : ∃ depth', kind.depthAfter? depth = some depth' := by
    unfold TokenKind.depthAfter?
    split
    · exact ⟨_, rfl⟩
    · obtain rfl := hreads.eq_rbrace
      exact ⟨_, if_neg h.depth_ne_zero⟩
    · exact ⟨_, rfl⟩
  obtain ⟨depth', hdepth⟩ := hdepth
  refine ⟨depth', hdepth, ?_⟩
  have hsplit : c :: cs = (c :: cs.take extra) ++ cs.drop extra := by simp
  rw [hsplit] at h
  exact h.rest_of_append (hreads.passes (by decide) hdepth)

/-- On code that has tokens the scan counts the braces among them. -/
theorem depth_of_lexFrom {gap : Gap} {found tokens : Array Token}
    (h : Token.lexFrom offset gap found cs = .ok tokens) : ∀ {depth : Nat}, Closes depth cs →
      ∃ ts, tokens.toList = found.toList ++ ts ∧ Token.depthAfter? depth ts = some 0 := by
  fun_induction Token.lexFrom offset gap found cs with
  | case1 offset gap found =>
    intro depth hcloses
    cases h
    cases hcloses
    exact ⟨_, Array.toList_push, rfl⟩
  | case2 => cases h
  | case3 offset gap found c cs extra hread text ih =>
    intro depth hcloses
    have hsplit : c :: cs = text ++ cs.drop extra := by simp [text]
    rw [hsplit] at hcloses
    exact ih h (hcloses.blank (Lexeme.blankPiece_of_read hread))
  | case4 offset gap found c cs extra kind hread text token =>
    rename_i ih
    intro depth hcloses
    obtain ⟨depth', hdepth, hrest⟩ := hcloses.token hread
    obtain ⟨ts, htokens, hafter⟩ := ih h hrest
    refine ⟨token :: ts, ?_, ?_⟩
    · rw [htokens, Array.toList_push, List.append_assoc]
      rfl
    · rw [Token.depthAfter?, hdepth, Option.bind_some]
      exact hafter

/-! ## The parts of a literal -/

/-- What stands between the backticks of a literal, from byte `offset` on: texts and codes in turn, each code
    between `${` and `}`. The texts are cooked. -/
inductive TemplateParts.Splits : (offset : Nat) → (body : List Char) → List TemplateText → List TemplateHole → Prop
  | last {offset : Nat} {raw text : List Char} : cook? raw = some text →
      Splits offset raw [⟨String.ofList text, Lexeme.spanOf offset raw⟩] []
  | cons {offset : Nat} {raw text code body : List Char} {texts : List TemplateText} {holes : List TemplateHole} :
      cook? raw = some text → Splits (offset + byteLength raw + 2 + byteLength code + 1) body texts holes →
      Splits offset (raw ++ '$' :: '{' :: (code ++ '}' :: body))
        (⟨String.ofList text, Lexeme.spanOf offset raw⟩ :: texts)
        (⟨code, Lexeme.spanOf (offset + byteLength raw + 2) code⟩ :: holes)

namespace Lexeme

open TemplateParts (Splits)

theorem splits_of_templateTail {head text : List Char} {tail : List (List Char × List Char)}
    {texts : List TemplateText} {holes : List TemplateHole} (hcook : cook? head = some text)
    (h : templateTail (offset + byteLength head) tail = .ok (texts, holes)) :
    Splits offset (head ++ tailChars tail) (⟨String.ofList text, spanOf offset head⟩ :: texts) holes ∧
      holes.map (·.code) = tail.map Prod.fst := by
  induction tail generalizing offset head text texts holes with
  | nil =>
    cases h
    rw [tailChars, List.append_nil]
    exact ⟨.last hcook, rfl⟩
  | cons piece tail ih =>
    obtain ⟨code, raw⟩ := piece
    rw [templateTail] at h
    split at h
    · cases h
    rename_i hraw
    split at h
    · cases h
    rename_i htail
    cases h
    obtain ⟨hsplits, hcodes⟩ := ih hraw htail
    exact ⟨.cons hcook hsplits, congrArg (code :: ·) hcodes⟩

theorem splits_of_templateParts {parts : TemplateParts}
    (h : templateParts offset raw = .ok parts) :
    Splits (offset + 1) raw.chars parts.texts parts.holes ∧ parts.holes.map (·.code) = raw.tail.map Prod.fst := by
  rw [templateParts] at h
  split at h
  · cases h
  rename_i hcook
  split at h
  · cases h
  rename_i htail
  cases h
  exact splits_of_templateTail hcook htail

end Lexeme

theorem TemplateParts.Splits.length_eq {body : List Char} {texts : List TemplateText}
    {holes : List TemplateHole} (h : Splits offset body texts holes) : texts.length = holes.length + 1 := by
  induction h with
  | last => rfl
  | cons _ _ ih => exact congrArg (· + 1) ih

/-- The scan closes each hole of a literal where its code ends. -/
theorem RawTemplate.Sound.closes_tail (h : Sound mode stack raw)
    (hstart : stack = [] ∨ mode = .code ∧ stack = [0]) : ∀ piece ∈ raw.tail, Closes 0 piece.1 := by
  induction h with
  | last => exact List.forall_mem_nil _
  | opens _ _ ih => exact ih (.inr ⟨rfl, rfl⟩)
  | closes hcode _ ih =>
    obtain ⟨rfl, hstack⟩ := hstart.resolve_left (List.cons_ne_nil _ _)
    cases hstack
    exact List.forall_mem_cons.mpr ⟨hcode, ih (.inl rfl)⟩

namespace Token

/-- A token is the end of file or was read where it stands. -/
theorem found_of_mem_lexFrom {gap : Gap} {found tokens : Array Token} {t : Token}
    (h : lexFrom offset gap found cs = .ok tokens) (ht : t ∈ tokens.toList) :
    t ∈ found.toList ∨ t.kind = .eof ∨ ∃ before text after, cs = before ++ (text ++ after) ∧
      t.span = Lexeme.spanOf (offset + byteLength before) text ∧
      Lexeme.Found (offset + byteLength before) text t.kind := by
  fun_induction lexFrom offset gap found cs with
  | case1 offset gap found =>
    cases h
    rw [Array.toList_push] at ht
    rcases List.mem_append.mp ht with hfound | hlast
    · exact .inl hfound
    · exact .inr (.inl (by rw [List.mem_singleton.mp hlast]))
  | case2 => cases h
  | case3 offset gap found c cs extra hread text ih =>
    refine (ih h).imp_right (Or.imp_right ?_)
    rintro ⟨before, inner, after, hcs, hspan, hfound⟩
    rw [Nat.add_assoc, ← byteLength_append] at hspan hfound
    exact ⟨text ++ before, inner, after, by rw [List.append_assoc, ← hcs]; simp [text], hspan, hfound⟩
  | case4 offset gap found c cs extra kind hread text token ih =>
    rcases ih h with hmem | heof | ⟨before, inner, after, hcs, hspan, hfound⟩
    · rw [Array.toList_push] at hmem
      rcases List.mem_append.mp hmem with hmem | hlast
      · exact .inl hmem
      · obtain rfl := List.mem_singleton.mp hlast
        exact .inr (.inr ⟨[], text, cs.drop extra, by simp [text], rfl, Lexeme.found_of_read hread⟩)
    · exact .inr (.inl heof)
    · rw [Nat.add_assoc, ← byteLength_append] at hspan hfound
      exact .inr (.inr ⟨text ++ before, inner, after, by rw [List.append_assoc, ← hcs]; simp [text], hspan, hfound⟩)

/-- Every template literal among tokens is split without a remainder: between its backticks stand its texts and
    the codes of its holes in turn, one text more than holes, and where the code of a hole has tokens of its own
    the braces among them are balanced. -/
theorem template_splits {base : Nat} {source : List Char} {tokens : Array Token} {t : Token} {parts : TemplateParts}
    (h : lexAt base source = .ok tokens) (ht : t ∈ tokens) (hkind : t.kind = .template parts) :
    ∃ before body after, source = before ++ ('\x60' :: (body ++ ['\x60']) ++ after) ∧
      t.span = Lexeme.spanOf (base + byteLength before) ('\x60' :: (body ++ ['\x60'])) ∧
      (∃ raw, read? (body ++ ['\x60']) = some (raw, []) ∧
        Lexeme.templateParts (base + byteLength before) raw = .ok parts) ∧
      parts.texts.length = parts.holes.length + 1 ∧
      TemplateParts.Splits (base + byteLength before + 1) body parts.texts parts.holes ∧
      ∀ hole ∈ parts.holes, ∀ base' inner, lexAt base' hole.code = .ok inner → Balanced inner.toList := by
  rcases found_of_mem_lexFrom h (Array.mem_toList_iff.mpr ht) with hnone | heof | ⟨before, text, after, hsource, hspan, hfound⟩
  · cases hnone
  · rw [hkind] at heof
    cases heof
  · obtain ⟨raw, rfl, hsound, hparts⟩ := hfound.parts parts hkind
    obtain ⟨hsplits, hcodes⟩ := Lexeme.splits_of_templateParts hparts
    refine ⟨before, raw.chars, after, hsource, hspan, ⟨raw, read?_eq_some_iff.mpr ⟨hsound, rfl⟩, hparts⟩,
      hsplits.length_eq, hsplits, fun hole hhole base' inner hinner => ?_⟩
    obtain ⟨piece, hpiece, hcode⟩ : ∃ piece ∈ raw.tail, piece.1 = hole.code := by
      rw [← List.mem_map, ← hcodes]
      exact List.mem_map_of_mem hhole
    obtain ⟨ts, hts, hbalanced⟩ := depth_of_lexFrom hinner (hcode ▸ hsound.closes_tail (.inl rfl) piece hpiece)
    rw [hts]
    exact hbalanced

/-- An object with a brace in a string, a literal with a hole of its own and a brace in a comment. -/
def nestedCode : List Char := "\x7bk: '\x7d', m: `$\x7b'\x7b'\x7d`\x7d /* \x7d */".toList

def nestedParts : TemplateParts := ⟨[⟨"a", ⟨1, 2⟩⟩, ⟨"A", ⟨34, 38⟩⟩], [⟨nestedCode, ⟨4, 33⟩⟩]⟩

theorem template_splits_nestedCode :
    ∃ tokens inner, lexAt 0 ("`a$\x7b".toList ++ nestedCode ++ "\x7d\\x41`".toList) = .ok tokens ∧
      ⟨.template nestedParts, ⟨0, 39⟩, false⟩ ∈ tokens ∧
      (∃ start body, TemplateParts.Splits (start + 1) body nestedParts.texts nestedParts.holes) ∧
      lexAt 0 nestedCode = .ok inner ∧ inner.size = 10 ∧ Balanced inner.toList := by
  have hlex : (lexAt 0 ("`a$\x7b".toList ++ nestedCode ++ "\x7d\\x41`".toList)).toOption.any
      (·.contains ⟨.template nestedParts, ⟨0, 39⟩, false⟩) = true := by decide +kernel
  have hinner : (lexAt 0 nestedCode).toOption.any (·.size == 10) = true := by decide +kernel
  obtain ⟨tokens, htokens, hmem⟩ := ok_of_any hlex
  obtain ⟨inner, hcode, hsize⟩ := ok_of_any hinner
  obtain ⟨before, body, -, -, -, -, -, hsplits, hbalanced⟩ := template_splits htokens (Array.contains_iff_mem.mp hmem) rfl
  exact ⟨tokens, inner, htokens, Array.contains_iff_mem.mp hmem, ⟨_, body, hsplits⟩, hcode, beq_iff_eq.mp hsize,
    hbalanced _ List.mem_cons_self 0 inner hcode⟩

end Token

end MatchChain
