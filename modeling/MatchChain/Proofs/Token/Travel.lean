import MatchChain.Proofs.Token.Layout
import MatchChain.Token.Cursor

/-!
# Moving through the tokens of a text

A cursor over the tokens of a text stands at one of them (`Sound`) and only moves on: `Reaches` and
`Takes` say that one cursor is not before, or is after, another over the same tokens. It never passes
the end of file, the offsets it passes grow, and the weight of what is ahead shrinks.
-/

set_option autoImplicit false

namespace MatchChain

variable {i : Nat}

/-! ## Tokens by index -/

namespace Token.Laid

variable {L : Locator} {lo hi : Nat} {ts : List Token}

theorem length_pos (h : Laid L hi lo ts) : 0 < ts.length := by
  cases h with
  | last => exact Nat.zero_lt_one
  | cons => exact Nat.zero_lt_succ _

theorem placed (h : Laid L hi lo ts) (hi' : i < ts.length) : ts[i].Placed L lo hi := by
  induction h generalizing i with
  | last _ hplaced =>
    obtain rfl : i = 0 := by simpa using hi'
    exact hplaced
  | cons _ hplaced _ ih =>
    cases i with
    | zero => exact hplaced
    | succ i =>
      have hrest := ih (Nat.lt_of_succ_lt_succ hi')
      obtain ⟨text, hcovers, -⟩ := hplaced.covers
      exact hrest.widen (Nat.le_trans hcovers.start_le hcovers.start_le_stop) (Nat.le_refl _)

theorem kind_eq_eof_iff (h : Laid L hi lo ts) (hi' : i < ts.length) :
    ts[i].kind = .eof ↔ i + 1 = ts.length := by
  induction h generalizing i with
  | last hkind _ =>
    obtain rfl : i = 0 := by simpa using hi'
    exact iff_of_true hkind rfl
  | cons hkind _ hrest ih =>
    cases i with
    | zero =>
      have := hrest.length_pos
      refine iff_of_false hkind ?_
      simp only [List.length_cons]
      omega
    | succ i =>
      have hiff := ih (Nat.lt_of_succ_lt_succ hi')
      simpa using hiff

theorem stop_le_start {i j : Nat} (h : Laid L hi lo ts) (hij : i < j) (hi' : i < ts.length) (hj : j < ts.length) :
    ts[i].span.stop ≤ ts[j].span.start := by
  induction h generalizing i j with
  | last =>
    simp only [List.length_singleton] at hj
    omega
  | cons _ _ hrest ih =>
    cases j with
    | zero => omega
    | succ j =>
      have hj' := Nat.lt_of_succ_lt_succ hj
      cases i with
      | zero =>
        obtain ⟨text, hcovers, -⟩ := (hrest.placed hj').covers
        exact hcovers.start_le
      | succ i => exact ih (Nat.lt_of_succ_lt_succ hij) (Nat.lt_of_succ_lt_succ hi') hj'

end Token.Laid

theorem Token.weights_drop_le (ts : List Token) (n : Nat) : weights (ts.drop n) ≤ weights ts := by
  induction ts generalizing n with
  | nil => simp
  | cons t ts ih =>
    cases n with
    | zero => exact Nat.le_refl _
    | succ n => exact Nat.le_trans (ih n) (Nat.le_add_left _ _)

/-! ## Cursors -/

namespace Cursor

variable {L : Locator} {c c' c'' : Cursor}

/-- The tokens of the cursor are those of a text, and it stands at one of them. -/
structure Sound (L : Locator) (c : Cursor) : Prop where
  laid : ∃ lo hi, Token.Laid L hi lo c.tokens.toList
  inside : c.pos < c.tokens.size

/-- The other cursor is over the same tokens and not before this one. -/
structure Reaches (c c' : Cursor) : Prop where
  tokens : c'.tokens = c.tokens
  pos : c.pos ≤ c'.pos
  inside : c'.pos < c'.tokens.size

/-- The other cursor is over the same tokens and after this one. -/
structure Takes (c c' : Cursor) : Prop where
  tokens : c'.tokens = c.tokens
  pos : c.pos < c'.pos
  inside : c'.pos < c'.tokens.size

/-- The offset where the next token starts. -/
def start (c : Cursor) : Nat := c.current.span.start

/-- The offset where the last token ends. -/
def stop (c : Cursor) : Nat := c.previousSpan.stop

/-- The weight of the tokens that are left. -/
def weight (c : Cursor) : Nat := Token.weights (c.tokens.toList.drop c.pos)

/-! ### Order -/

theorem Reaches.refl (h : c.Sound L) : c.Reaches c := ⟨rfl, Nat.le_refl _, h.inside⟩

theorem Reaches.trans (h : c.Reaches c') (h' : c'.Reaches c'') : c.Reaches c'' :=
  ⟨h'.tokens.trans h.tokens, Nat.le_trans h.pos h'.pos, h'.inside⟩

theorem Takes.reaches (h : c.Takes c') : c.Reaches c' := ⟨h.tokens, Nat.le_of_lt h.pos, h.inside⟩

theorem Takes.then (h : c.Takes c') (h' : c'.Reaches c'') : c.Takes c'' :=
  ⟨h'.tokens.trans h.tokens, Nat.lt_of_lt_of_le h.pos h'.pos, h'.inside⟩

theorem Reaches.takes (h : c.Reaches c') (h' : c'.Takes c'') : c.Takes c'' :=
  ⟨h'.tokens.trans h.tokens, Nat.lt_of_le_of_lt h.pos h'.pos, h'.inside⟩

theorem Sound.reaches (h : c.Sound L) (h' : c.Reaches c') : c'.Sound L :=
  ⟨h'.tokens ▸ h.laid, h'.inside⟩

theorem Sound.takes (h : c.Sound L) (h' : c.Takes c') : c'.Sound L := h.reaches h'.reaches

/-! ### Tokens -/

theorem tokenAt_of_lt (h : i < c.tokens.toList.length) : c.tokenAt i = c.tokens.toList[i] := by
  have hsize : i < c.tokens.size := h
  unfold tokenAt
  rw [Array.getElem?_eq_getElem hsize]
  rfl

theorem Sound.placed (h : c.Sound L) (hi' : i < c.tokens.size) : ∃ lo hi, (c.tokenAt i).Placed L lo hi := by
  obtain ⟨lo, hi, hlaid⟩ := h.laid
  refine ⟨lo, hi, ?_⟩
  rw [tokenAt_of_lt hi']
  exact hlaid.placed hi'

theorem Sound.isName {name : String} (h : c.Sound L) (hk : c.kind = .ident name) : IsName name := by
  obtain ⟨lo, hi, hplaced⟩ := h.placed h.inside
  exact hplaced.named name hk

theorem Sound.kind_eq_eof_iff (h : c.Sound L) : c.kind = .eof ↔ c.pos + 1 = c.tokens.size := by
  obtain ⟨lo, hi, hlaid⟩ := h.laid
  unfold kind current
  rw [tokenAt_of_lt h.inside]
  exact hlaid.kind_eq_eof_iff h.inside

theorem Sound.stop_le_start {i j : Nat} (h : c.Sound L) (hij : i < j) (hj : j < c.tokens.size) :
    (c.tokenAt i).span.stop ≤ (c.tokenAt j).span.start := by
  obtain ⟨lo, hi, hlaid⟩ := h.laid
  rw [tokenAt_of_lt (Nat.lt_trans hij hj), tokenAt_of_lt hj]
  exact hlaid.stop_le_start hij _ _

theorem Sound.start_le_stop (h : c.Sound L) (hi' : i < c.tokens.size) :
    (c.tokenAt i).span.start ≤ (c.tokenAt i).span.stop := by
  obtain ⟨lo, hi, hplaced⟩ := h.placed hi'
  obtain ⟨text, hcovers, -⟩ := hplaced.covers
  exact hcovers.start_le_stop

theorem tokenAt_congr (h : c'.tokens = c.tokens) (i : Nat) : c'.tokenAt i = c.tokenAt i := by
  unfold tokenAt
  rw [h]

/-! ### One token further -/

theorem advance_of_ne_eof (h : c.kind ≠ .eof) : c.advance = { c with pos := c.pos + 1 } := by
  unfold advance atEnd
  rw [if_neg]
  simpa using h

theorem Sound.takes_advance (h : c.Sound L) (hkind : c.kind ≠ .eof) : c.Takes c.advance := by
  have hlast : c.pos + 1 ≠ c.tokens.size := fun heq => hkind (h.kind_eq_eof_iff.mpr heq)
  have hinside := h.inside
  rw [advance_of_ne_eof hkind]
  exact ⟨rfl, Nat.lt_succ_self _, by change c.pos + 1 < c.tokens.size; omega⟩

theorem stop_advance (hkind : c.kind ≠ .eof) : c.advance.stop = c.current.span.stop := by
  rw [advance_of_ne_eof hkind]
  rfl

/-! ### Offsets -/

theorem stop_of_takes {c₀ : Cursor} (h : c₀.Takes c) : c.stop = (c.tokenAt (c.pos - 1)).span.stop := by
  have hpos : 0 < c.pos := Nat.lt_of_le_of_lt (Nat.zero_le _) h.pos
  unfold stop previousSpan
  rw [if_pos hpos]

theorem Sound.start_le_start (h : c.Sound L) (h' : c.Reaches c') : c.start ≤ c'.start := by
  unfold start current
  rw [tokenAt_congr h'.tokens]
  rcases Nat.eq_or_lt_of_le h'.pos with heq | hlt
  · exact Nat.le_of_eq (by rw [heq])
  · have hsize : c'.pos < c.tokens.size := h'.tokens ▸ h'.inside
    exact Nat.le_trans (h.start_le_stop h.inside) (h.stop_le_start hlt hsize)

theorem Sound.stop_mono (h : c.Sound L) (h' : c.Reaches c') : c.stop ≤ c'.stop := by
  have hsize : c'.pos < c.tokens.size := h'.tokens ▸ h'.inside
  have hle := h'.pos
  unfold stop previousSpan
  by_cases hpos : 0 < c.pos
  · have hpos' : 0 < c'.pos := Nat.lt_of_lt_of_le hpos hle
    rw [if_pos hpos, if_pos hpos', tokenAt_congr h'.tokens]
    rcases Nat.eq_or_lt_of_le hle with heq | hlt
    · exact Nat.le_of_eq (by rw [heq])
    · exact Nat.le_trans (h.stop_le_start (j := c'.pos - 1) (by omega) (by omega)) (h.start_le_stop (by omega))
  · rw [if_neg hpos]
    exact Nat.zero_le _

theorem Sound.start_le_stop_of_takes (h : c.Sound L) (h' : c.Takes c') : c.start ≤ c'.stop := by
  rw [stop_of_takes h', tokenAt_congr h'.tokens]
  have hsize : c'.pos < c.tokens.size := h'.tokens ▸ h'.inside
  have hpos := h'.pos
  unfold start current
  rcases Nat.eq_or_lt_of_le (Nat.le_sub_one_of_lt hpos) with heq | hlt
  · rw [← heq]
    exact h.start_le_stop h.inside
  · exact Nat.le_trans (h.start_le_stop h.inside)
      (Nat.le_trans (h.stop_le_start hlt (by omega)) (h.start_le_stop (by omega)))

theorem Sound.at_start (h : c.Sound L) : L.At c.start [] := by
  obtain ⟨lo, hi, hplaced⟩ := h.placed h.inside
  obtain ⟨text, hcovers, -⟩ := hplaced.covers
  exact hcovers.at_start

theorem Sound.at_stop (h : c.Sound L) (h' : c.Takes c') : L.At c'.stop [] := by
  have hpos := h'.pos
  have hsize : c'.pos < c.tokens.size := h'.tokens ▸ h'.inside
  obtain ⟨lo, hi, hplaced⟩ := h.placed (i := c'.pos - 1) (by omega)
  obtain ⟨text, hcovers, -⟩ := hplaced.covers
  rw [stop_of_takes h', tokenAt_congr h'.tokens]
  exact hcovers.at_stop

/-! ### Weights -/

/-- The code in a template literal is lighter than the rest of the tokens. -/
theorem Sound.codeLength_lt_weight {parts : TemplateParts} (h : c.Sound L) (hkind : c.kind = .template parts) :
    codeLength parts.holes < c.weight := by
  have hlt : c.pos < c.tokens.toList.length := h.inside
  have hcurrent : c.tokens.toList[c.pos].kind = .template parts := by
    rw [← tokenAt_of_lt hlt]
    exact hkind
  rw [weight, List.drop_eq_getElem_cons hlt, Token.weights, hcurrent, TokenKind.weight]
  omega

/-- Tokens that stand between two offsets begin after the first and end before the second. -/
theorem le_start_of_laid {lo hi : Nat} (hlaid : Token.Laid L hi lo c.tokens.toList) (hinside : c.pos < c.tokens.size) :
    lo ≤ c.start := by
  have hlt : c.pos < c.tokens.toList.length := hinside
  obtain ⟨text, hcovers, -⟩ := (hlaid.placed hlt).covers
  rw [start, current, tokenAt_of_lt hlt]
  exact hcovers.start_le

theorem stop_le_of_laid {lo hi : Nat} (hlaid : Token.Laid L hi lo c.tokens.toList) (h : c.Takes c') : c'.stop ≤ hi := by
  have hpos := h.pos
  have hinside := h.inside
  have hsize : c'.tokens.size = c.tokens.size := congrArg Array.size h.tokens
  have hlt : c'.pos - 1 < c.tokens.toList.length := by
    rw [Array.length_toList]
    omega
  obtain ⟨text, hcovers, -⟩ := (hlaid.placed hlt).covers
  rw [stop_of_takes h, tokenAt_congr h.tokens, tokenAt_of_lt hlt]
  exact hcovers.le_stop

theorem Sound.weight_lt (h : c.Sound L) (h' : c.Takes c') : c'.weight < c.weight := by
  have hsize : c'.pos < c.tokens.size := h'.tokens ▸ h'.inside
  have hpos := h'.pos
  have hkind : c.kind ≠ .eof := fun heof => by
    have := h.kind_eq_eof_iff.mp heof
    omega
  obtain ⟨n, hn⟩ : ∃ n, c'.pos = c.pos + 1 + n := ⟨c'.pos - (c.pos + 1), by omega⟩
  have hcons : c.tokens.toList.drop c.pos = c.current :: c.tokens.toList.drop (c.pos + 1) := by
    unfold current
    rw [tokenAt_of_lt h.inside]
    exact List.drop_eq_getElem_cons h.inside
  unfold weight
  rw [h'.tokens, hcons, hn, ← List.drop_drop, Token.weights]
  have hweight : 0 < c.current.kind.weight := TokenKind.weight_pos hkind
  have hdrop := Token.weights_drop_le (c.tokens.toList.drop (c.pos + 1)) n
  omega

theorem Sound.weight_le (h : c.Sound L) (h' : c.Reaches c') : c'.weight ≤ c.weight := by
  rcases Nat.eq_or_lt_of_le h'.pos with heq | hlt
  · unfold weight
    exact Nat.le_of_eq (by rw [h'.tokens, heq])
  · exact Nat.le_of_lt (h.weight_lt ⟨h'.tokens, hlt, h'.inside⟩)

end Cursor

end MatchChain
