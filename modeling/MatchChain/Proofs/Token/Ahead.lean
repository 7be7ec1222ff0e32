import MatchChain.Token.Cursor

/-!
# What a cursor sees

The kinds of the tokens from a cursor on, on one line. Everything a parser asks of a cursor, the search
for a closing bracket included, is a function of this list.
-/

set_option autoImplicit false

namespace MatchChain

namespace TokenKind

/-- What comes after the bracket that closes the last one of those open, where `depth` are open before. -/
def afterClose : (depth : Nat) → List TokenKind → Option (List TokenKind)
  | _, [] => none
  | depth, k :: ks =>
    if k == .eof then none
    else if k.isOpening then afterClose (depth + 1) ks
    else if k.isClosing then
      match depth with
      | 0 => none
      | 1 => some ks
      | d + 2 => afterClose (d + 1) ks
    else afterClose depth ks

/-- A token list that closes the brackets it opens, so that a search for a closing bracket passes it. -/
def Balanced (ks : List TokenKind) : Prop :=
  ∀ depth rest, afterClose (depth + 1) (ks ++ rest) = afterClose (depth + 1) rest

namespace Balanced

variable {ks ls : List TokenKind}

theorem nil : Balanced [] := fun _ _ => rfl

theorem append (hks : Balanced ks) (hls : Balanced ls) : Balanced (ks ++ ls) := by
  intro depth rest
  rw [List.append_assoc, hks, hls]

theorem cons {k : TokenKind} (heof : k ≠ .eof) (hopening : k.isOpening = false)
    (hclosing : k.isClosing = false) (hks : Balanced ks) : Balanced (k :: ks) := by
  intro depth rest
  rw [List.cons_append, afterClose.eq_def]
  simp only [beq_iff_eq, heof, if_false, hopening, hclosing, Bool.false_eq_true]
  exact hks depth rest

theorem enclosed {p q : Punct} (hp : isOpening (.punct p) = true) (hq : isOpening (.punct q) = false)
    (hq' : isClosing (.punct q) = true) (hks : Balanced ks) :
    Balanced (.punct p :: (ks ++ [.punct q])) := by
  intro depth rest
  rw [List.cons_append, afterClose.eq_def, List.append_assoc]
  simp only [beq_iff_eq, reduceCtorEq, if_false, hp, if_true]
  rw [hks, List.singleton_append, afterClose.eq_def]
  simp [hq, hq']

end Balanced

/-- The bracket that closes the first one is the one after a balanced list. -/
theorem afterClose_enclosed {ks : List TokenKind} (h : Balanced ks) (rest : List TokenKind) :
    afterClose 0 (.punct .lparen :: (ks ++ .punct .rparen :: rest)) = some rest := by
  have hopen : afterClose 0 (.punct .lparen :: (ks ++ .punct .rparen :: rest))
      = afterClose 1 (ks ++ .punct .rparen :: rest) := rfl
  rw [hopen, h]
  rfl

end TokenKind

namespace Cursor

/-- The tokens from the cursor on, up to the end of the text. -/
def Sees (c : Cursor) (ts : List Token) : Prop := c.tokens.toList.drop c.pos = ts

namespace Sees

variable {c : Cursor} {t : Token} {ts : List Token}

theorem remaining (h : c.Sees ts) : c.remaining = ts.length := by
  rw [← h, List.length_drop, Array.length_toList, Cursor.remaining]

theorem current (h : c.Sees (t :: ts)) : c.current = t := by
  have hget : c.tokens.toList[c.pos]? = some t := by
    have hhead := List.head?_drop (l := c.tokens.toList) (i := c.pos)
    rw [show c.tokens.toList.drop c.pos = t :: ts from h] at hhead
    exact hhead.symm
  rw [Cursor.current, tokenAt, ← Array.getElem?_toList, hget]

theorem kind (h : c.Sees (t :: ts)) : c.kind = t.kind := by rw [Cursor.kind, h.current]

theorem advance (h : c.Sees (t :: ts)) (ht : t.kind ≠ .eof) : c.advance.Sees ts := by
  rw [Cursor.advance, atEnd, h.kind, if_neg (by simpa using ht), Sees, ← List.tail_drop,
    show c.tokens.toList.drop c.pos = t :: ts from h, List.tail_cons]

theorem step {k : TokenKind} (h : c.Sees (t :: ts)) (ht : t.kind = k) (hk : k ≠ .eof) :
    c.kind = k ∧ c.advance.Sees ts :=
  ⟨h.kind.trans ht, h.advance (ht ▸ hk)⟩

end Sees

/-- The tokens ahead are of these kinds, up to the end of the text, and stand on one line. -/
structure Ahead (c : Cursor) (kinds : List TokenKind) : Prop where
  kinds_eq : (c.tokens.toList.drop c.pos).map (·.kind) = kinds ++ [.eof]
  oneLine : ∀ t ∈ c.tokens.toList.drop c.pos, t.kind ≠ .eof → t.newlineBefore = false

namespace Ahead

variable {c : Cursor} {k : TokenKind} {ks : List TokenKind}

theorem remaining (h : c.Ahead ks) : c.remaining = ks.length + 1 := by
  have hlength := congrArg List.length h.kinds_eq
  simpa [Cursor.remaining] using hlength

theorem getElem? (h : c.Ahead ks) (n : Nat) :
    (c.tokens[c.pos + n]?).map (·.kind) = (ks ++ [.eof])[n]? := by
  rw [← h.kinds_eq, List.getElem?_map, List.getElem?_drop, Array.getElem?_toList]

/-- The token some places ahead, past which there is only the end. -/
theorem kind_tokenAt (h : c.Ahead ks) (n : Nat) : (c.tokenAt (c.pos + n)).kind = ks.getD n .eof := by
  have hget := h.getElem? n
  unfold tokenAt
  split
  case h_1 t ht =>
    rw [ht, Option.map_some] at hget
    grind
  case h_2 hnone =>
    -- past the end the last token is seen, which is the end of file
    have hsize : c.tokens.size ≤ c.pos + n := Array.getElem?_eq_none_iff.mp hnone
    have hremaining : c.tokens.size - c.pos = ks.length + 1 := h.remaining
    have hlast := h.getElem? ks.length
    have hindex : c.pos + ks.length = c.tokens.size - 1 := by omega
    have hout : ks[n]? = none := List.getElem?_eq_none_iff.mpr (by omega)
    rw [List.getElem?_concat_length, hindex] at hlast
    obtain ⟨t, ht, hkind⟩ := Option.map_eq_some_iff.mp hlast
    rw [Array.back?, ht, Option.getD_some, hkind, List.getD_eq_getElem?_getD, hout, Option.getD_none]

theorem kind_current (h : c.Ahead ks) : c.kind = ks.headD .eof := by
  have hzero := h.kind_tokenAt 0
  cases ks <;> exact hzero

theorem kind_cons (h : c.Ahead (k :: ks)) : c.kind = k := h.kind_current

theorem newlineBefore_peek (h : c.Ahead ks) {n : Nat} (hk : ks[n]? = some k) (hne : k ≠ .eof) :
    (c.peek n).newlineBefore = false := by
  have hget := h.getElem? n
  rw [List.getElem?_append_left (List.getElem?_eq_some_iff.mp hk).1, hk] at hget
  obtain ⟨t, ht, rfl⟩ := Option.map_eq_some_iff.mp hget
  have hmem : t ∈ c.tokens.toList.drop c.pos := by
    refine List.mem_of_getElem? (i := n) ?_
    rw [List.getElem?_drop, Array.getElem?_toList, ht]
  rw [peek, tokenAt, ht]
  exact h.oneLine t hmem hne

theorem step (h : c.Ahead (k :: ks)) : Ahead { c with pos := c.pos + 1 } ks := by
  refine ⟨?_, fun t ht => h.oneLine t ?_⟩
  · have htail := congrArg List.tail h.kinds_eq
    rwa [List.cons_append, List.tail_cons, ← List.map_tail, List.tail_drop] at htail
  · rw [← List.tail_drop] at ht
    exact List.mem_of_mem_tail ht

theorem advance (h : c.Ahead (k :: ks)) (hne : k ≠ .eof) : c.advance.Ahead ks := by
  rw [Cursor.advance, atEnd, h.kind_cons, if_neg (by simpa using hne)]
  exact h.step

/-- The search for a closing bracket stops before what `TokenKind.afterClose` leaves. -/
theorem closeFrom {i : Nat} (h : Ahead { c with pos := i } ks) (depth : Nat) :
    Option.Rel (fun j rest => Ahead { c with pos := j + 1 } rest)
      (c.closeFrom (ks.length + 1) depth i) (TokenKind.afterClose depth ks) := by
  induction ks generalizing i depth with
  | nil =>
    have hkind : (c.tokenAt i).kind = .eof := h.kind_current
    have hnone : c.closeFrom 1 depth i = none := by simp [Cursor.closeFrom, hkind]
    rw [TokenKind.afterClose, List.length_nil, hnone]
    exact .none
  | cons k ks ih =>
    have hkind : (c.tokenAt i).kind = k := h.kind_cons
    rw [TokenKind.afterClose.eq_def, List.length_cons, Cursor.closeFrom.eq_def]
    simp only [hkind, beq_iff_eq]
    by_cases heof : k = .eof
    · simp only [heof, if_true]
      exact .none
    by_cases hopening : k.isOpening = true
    · simp only [heof, hopening, if_true, if_false]
      exact ih h.step (depth + 1)
    by_cases hclosing : k.isClosing = true
    · simp only [heof, hopening, hclosing, if_true, if_false]
      match depth with
      | 0 => exact .none
      | 1 => exact .some h.step
      | d + 2 => exact ih h.step (d + 1)
    · simp only [heof, hopening, hclosing, if_false]
      exact ih h.step depth

end Ahead

end Cursor

end MatchChain
