import MatchChain.Text.Quoted

/-!
# What raw text stands for

Raw text is read in pieces: an escape sequence is one, and so is every character outside of one. `Stands`
lists the pieces with what they stand for, and `Cooks` puts them together. Cooking a text succeeds exactly if
it can be cut into such pieces, and gives what they stand for (`cook?_eq_some_iff`).

Two kinds of pieces are no proper escape sequences, but are read like one: a code with a plus sign before its
digits, and at the end of the text a code whose brace is not closed.
-/

set_option autoImplicit false

namespace MatchChain.Text

variable {ds : List Char} {c : Char}

/-! ## Codes -/

/-- The number that hexadecimal digits stand for. -/
def hexValue (ds : List Char) : Nat := ds.foldl (fun n d => 16 * n + (hexDigit? d).getD 0) 0

/-- Hexadecimal digits, and the character whose code they are. -/
structure IsCode (ds : List Char) (c : Char) : Prop where
  ne_nil : ds ≠ []
  digits : ∀ d ∈ ds, (hexDigit? d).isSome = true
  valid : (hexValue ds).isValidChar
  char : c = Char.ofNat (hexValue ds)

/-- A code, which may have a plus sign. -/
def Names (ds : List Char) (c : Char) : Prop := IsCode ds c ∨ ∃ rest, ds = '+' :: rest ∧ IsCode rest c

theorem hexDigit?_range {d : Char} (h : (hexDigit? d).isSome = true) :
    d.toNat < 128 ∧ d ∉ ['+', '{', '}', '\'', '\\', '\n', '\r'] := by
  have hrange : d.isDigit = true ∨ ('a' ≤ d ∧ d ≤ 'f') ∨ ('A' ≤ d ∧ d ≤ 'F') := by
    unfold hexDigit? at h
    grind
  have hcode : (48 ≤ d.toNat ∧ d.toNat ≤ 57) ∨ (97 ≤ d.toNat ∧ d.toNat ≤ 102) ∨ (65 ≤ d.toNat ∧ d.toNat ≤ 70) := by
    rcases hrange with hdigit | hlower | hupper
    · exact .inl (by simpa [Char.isDigit, UInt32.le_iff_toNat_le] using hdigit)
    · exact .inr (.inl hlower)
    · exact .inr (.inr hupper)
  refine ⟨by omega, fun hmem => ?_⟩
  simp only [List.mem_cons, List.not_mem_nil, or_false] at hmem
  rcases hmem with rfl | rfl | rfl | rfl | rfl | rfl | rfl <;> revert hcode <;> decide

theorem hexDigit?_lt {d : Char} {n : Nat} (h : hexDigit? d = some n) : n < 16 := by
  unfold hexDigit? at h
  have hdigit : d.isDigit = true → d.toNat ≤ 57 := fun h => by
    have : 48 ≤ d.toNat ∧ d.toNat ≤ 57 := by simpa [Char.isDigit, UInt32.le_iff_toNat_le] using h
    omega
  have hlower : d ≤ 'f' → d.toNat ≤ 102 := fun h => h
  have hupper : d ≤ 'F' → d.toNat ≤ 70 := fun h => h
  have hconst : '0'.toNat = 48 ∧ 'a'.toNat = 97 ∧ 'A'.toNat = 65 := by decide
  grind

theorem digits?_eq_some_iff {n : Nat} : digits? 16 ds = some n ↔
    ds ≠ [] ∧ (∀ d ∈ ds, (hexDigit? d).isSome = true) ∧ n = hexValue ds := by
  have hfold : ∀ (ds : List Char) (k : Nat),
      ds.foldlM (fun n c => (hexDigit? c).bind fun d => if d < 16 then some (16 * n + d) else none) k = some n ↔
        (∀ d ∈ ds, (hexDigit? d).isSome = true) ∧ n = ds.foldl (fun n d => 16 * n + (hexDigit? d).getD 0) k := by
    intro ds
    induction ds with
    | nil => intro k; exact ⟨fun h => ⟨nofun, (Option.some.inj h).symm⟩, fun h => congrArg some h.2.symm⟩
    | cons d ds ih =>
      intro k
      rw [List.foldlM_cons, List.foldl_cons]
      cases hd : hexDigit? d with
      | none => simp [hd]
      | some m => simp [hd, hexDigit?_lt hd, ih]
  unfold digits? hexValue
  split
  · simp_all
  · rw [hfold]
    simp_all

/-- The digits of a code may have a plus sign before them. -/
theorem scalar?_eq_some_iff : scalar? ds = some c ↔ Names ds c := by
  have hcode : ∀ ds, ((digits? 16 ds).bind fun n => if n.isValidChar then some (Char.ofNat n) else none) = some c ↔
      IsCode ds c := by
    intro ds
    rw [Option.bind_eq_some_iff]
    constructor
    · rintro ⟨n, hn, hc⟩
      obtain ⟨hne, hdigits, rfl⟩ := digits?_eq_some_iff.mp hn
      split at hc
      · exact ⟨hne, hdigits, ‹_›, (Option.some.inj hc).symm⟩
      · cases hc
    · rintro ⟨hne, hdigits, hvalid, rfl⟩
      exact ⟨_, digits?_eq_some_iff.mpr ⟨hne, hdigits, rfl⟩, if_pos hvalid⟩
  unfold scalar?
  split
  · rename_i rest
    rw [hcode]
    refine ⟨fun h => .inr ⟨rest, rfl, h⟩, ?_⟩
    rintro (h | ⟨_, heq, h⟩)
    · exact absurd (hexDigit?_range (h.digits '+' List.mem_cons_self)).2 (by simp)
    · cases heq
      exact h
  · rename_i hplus
    rw [hcode]
    exact ⟨.inl, Or.rec id fun ⟨rest, heq, _⟩ => absurd heq (hplus rest)⟩

namespace Names

variable {ds : List Char} {c : Char}

/-- The characters of a code are no quotes, no backslashes, no braces and no line breaks, and are of one byte. -/
theorem plain (h : Names ds c) : ∀ d ∈ ds, d.toNat < 128 ∧ d ∉ ['{', '}', '\'', '\\', '\n', '\r'] := by
  have hdigit {d : Char} (h : (hexDigit? d).isSome = true) := hexDigit?_range h
  rcases h with h | ⟨rest, rfl, h⟩
  · intro d hd
    have := hdigit (h.digits d hd)
    grind
  · refine List.forall_mem_cons.mpr ⟨by decide, fun d hd => ?_⟩
    have := hdigit (h.digits d hd)
    grind

theorem byteLength_eq (h : Names ds c) : byteLength ds = ds.length := by
  have hplain := h.plain
  clear h
  induction ds with
  | nil => rfl
  | cons d ds ih =>
    obtain ⟨hd, hds⟩ := List.forall_mem_cons.mp hplain
    have hsize : d.utf8Size = 1 := Char.utf8Size_eq_one_iff.mpr (by
      have := hd.1
      simp [UInt32.le_iff_toNat_le]; exact Nat.le_of_lt_succ this)
    rw [byteLength_cons, ih hds, hsize, List.length_cons, Nat.add_comm]

theorem ne_nil (h : Names ds c) : ds ≠ [] := by
  rcases h with h | ⟨rest, rfl, _⟩
  · exact h.ne_nil
  · exact List.cons_ne_nil _ _

end Names

theorem fixedScalar?_eq_some_iff : fixedScalar? ds = some c ↔ Names ds c := by
  unfold fixedScalar?
  split
  · exact scalar?_eq_some_iff
  · rename_i hbytes
    exact ⟨nofun, fun h => absurd h.byteLength_eq hbytes⟩

theorem bracedScalar?_eq_some_iff :
    bracedScalar? ds = some c ↔ ds.length ≤ 6 ∧ Names ds c := by
  unfold bracedScalar?
  split
  · rename_i hbytes
    refine ⟨nofun, fun ⟨hlength, h⟩ => ?_⟩
    rw [h.byteLength_eq] at hbytes
    exact absurd hbytes (not_or.mpr ⟨h.ne_nil, Nat.not_lt.mpr hlength⟩)
  · rw [scalar?_eq_some_iff]
    refine ⟨fun h => ⟨?_, h⟩, And.right⟩
    have := h.byteLength_eq
    omega

/-! ## Pieces -/

/-- A piece of raw text that the text `next` follows, and what it stands for. -/
inductive Stands (next : List Char) : (piece text : List Char) → Prop
  | plain {c : Char} : c ≠ '\\' → Stands next [c] [c]
  | named {c d : Char} : namedEscape? c = some d → Stands next ['\\', c] [d]
  | zero : (∀ d ∈ next.head?, d.isDigit = false) → Stands next ['\\', '0'] ['\x00']
  /-- A backslash before any other character stands for that character. -/
  | itself {c : Char} : namedEscape? c = none → c.isDigit = false → isLineEnd c = false → c ∉ ['x', 'u', '\r'] →
      Stands next ['\\', c] [c]
  /-- A line continuation stands for nothing. -/
  | lineEnd {c : Char} : isLineEnd c = true → Stands next ['\\', c] []
  | carriageReturn : next.head? ≠ some '\n' → Stands next ['\\', '\r'] []
  | carriageReturnLineFeed : Stands next ['\\', '\r', '\n'] []
  | hex {ds : List Char} {c : Char} : ds.length = 2 → Names ds c → Stands next ('\\' :: 'x' :: ds) [c]
  | unicode {ds : List Char} {c : Char} : ds.length = 4 → Names ds c → Stands next ('\\' :: 'u' :: ds) [c]
  | braced {ds : List Char} {c : Char} : ds.length ≤ 6 → Names ds c →
      Stands next ('\\' :: 'u' :: '{' :: (ds ++ ['}'])) [c]
  /-- The end of the text closes a brace. -/
  | unclosed {ds : List Char} {c : Char} : ds.length ≤ 6 → Names ds c → next = [] →
      Stands next ('\\' :: 'u' :: '{' :: ds) [c]

/-- Pieces of raw text one after another, and what they stand for together. -/
inductive Cooks : (pieces : List (List Char)) → (text : List Char) → Prop
  | nil : Cooks [] []
  | cons {piece text : List Char} {pieces : List (List Char)} {rest : List Char} :
      Stands pieces.flatten piece text → Cooks pieces rest → Cooks (piece :: pieces) (text ++ rest)

/-- The characters of an unfinished braced code are collected up to the brace that closes it. -/
theorem cookFrom_code (h : '}' ∉ ds) (code rest : List Char) :
    cookFrom (some code) (ds ++ '}' :: rest)
      = (bracedScalar? (code ++ ds)).bind fun d => (cookFrom none rest).map (d :: ·) := by
  induction ds generalizing code with
  | nil => simp [cookFrom]
  | cons d ds ih =>
    obtain ⟨hd, hds⟩ := not_or.mp (mt List.mem_cons.mpr h)
    rw [List.cons_append, cookFrom, if_neg (Ne.symm hd), ih hds, List.append_assoc, List.singleton_append]

theorem cookFrom_code_end (h : '}' ∉ ds) (code : List Char) :
    cookFrom (some code) ds = (bracedScalar? (code ++ ds)).map ([·]) := by
  induction ds generalizing code with
  | nil => simp [cookFrom]
  | cons d ds ih =>
    obtain ⟨hd, hds⟩ := not_or.mp (mt List.mem_cons.mpr h)
    rw [cookFrom, if_neg (Ne.symm hd), ih hds, List.append_assoc, List.singleton_append]

/-- An escape of one character, unless it is the start of a code or a line break that may have two. -/
theorem cookFrom_escape (h : c ∉ ['x', 'u', '\r']) (cs : List Char) :
    cookFrom none ('\\' :: c :: cs)
      = if isLineEnd c then cookFrom none cs
        else if c.isDigit then
          if c = '0' ∧ !cs.head?.any Char.isDigit then (cookFrom none cs).map ('\x00' :: ·) else none
        else (cookFrom none cs).map ((namedEscape? c).getD c :: ·) := by
  rw [cookFrom] <;> simp_all

/-- A piece is cooked alone. -/
theorem Stands.cookFrom_append {next piece text : List Char} (h : Stands next piece text) :
    cookFrom none (piece ++ next) = (cookFrom none next).map (text ++ ·) := by
  have hcode {ds : List Char} {c : Char} (h : Names ds c) : '{' ∉ ds ∧ '}' ∉ ds :=
    ⟨fun hmem => (h.plain _ hmem).2 (by simp), fun hmem => (h.plain _ hmem).2 (by simp)⟩
  cases h with
  | plain hback => rw [List.singleton_append, cookFrom] <;> simp_all
  | @named c d hnamed =>
    have hplain : c ∉ ['x', 'u', '\r'] ∧ isLineEnd c = false ∧ c.isDigit = false := by
      unfold namedEscape? at hnamed
      split at hnamed <;> first | decide | cases hnamed
    simp [cookFrom_escape hplain.1, hplain, hnamed]
  | zero hnext =>
    have hdigit : next.head?.any Char.isDigit = false := by
      cases next with
      | nil => rfl
      | cons d next => exact hnext d rfl
    rw [List.cons_append, List.singleton_append, cookFrom_escape (by decide)]
    simp [hdigit, isLineEnd]
  | itself hnamed hdigit hline hother => simp [cookFrom_escape hother, hline, hdigit, hnamed]
  | @lineEnd c hline =>
    have hc : c ∉ ['x', 'u', '\r'] := by
      simp only [isLineEnd, Bool.or_eq_true, beq_iff_eq] at hline
      rcases hline with (rfl | rfl) | rfl <;> decide
    simp [cookFrom_escape hc, hline]
  | carriageReturn hnext =>
    rw [List.cons_append, List.singleton_append, cookFrom]
    · simp
    · rintro cs rfl
      exact hnext rfl
  | carriageReturnLineFeed => simp [cookFrom]
  | @hex ds c hlength h =>
    match ds, hlength, h with
    | [a, b], _, h => simp [cookFrom, fixedScalar?_eq_some_iff.mpr h]
  | @unicode ds c hlength h =>
    match ds, hlength, h with
    | [a, b, c, d], _, h =>
      have ha : a ≠ '{' := fun heq => (hcode h).1 (heq ▸ List.mem_cons_self)
      simp [cookFrom, fixedScalar?_eq_some_iff.mpr h]
  | @braced ds c hlength h =>
    have hread := bracedScalar?_eq_some_iff.mpr ⟨hlength, h⟩
    simp [cookFrom, cookFrom_code (hcode h).2, hread]
  | @unclosed ds c hlength h hnext =>
    subst hnext
    have hread := bracedScalar?_eq_some_iff.mpr ⟨hlength, h⟩
    simp [cookFrom, cookFrom_code_end (hcode h).2, hread]

/-- The raw text that is still to be read, with the code that has been read of it. -/
def unread : (code : Option (List Char)) → List Char → List Char
  | none, cs => cs
  | some code, cs => '\\' :: 'u' :: '{' :: (code ++ cs)

theorem cooks_of_cookFrom {code : Option (List Char)} {cs text : List Char} (h : cookFrom code cs = some text) :
    ∃ pieces, unread code cs = pieces.flatten ∧ Cooks pieces text := by
  have hpiece {piece rest out : List Char} {t : List Char} (hrest : ∃ pieces, rest = pieces.flatten ∧ Cooks pieces out)
      (h : Stands rest piece t) : ∃ pieces, piece ++ rest = pieces.flatten ∧ Cooks pieces (t ++ out) := by
    obtain ⟨pieces, rfl, hcooks⟩ := hrest
    exact ⟨piece :: pieces, rfl, .cons h hcooks⟩
  fun_induction cookFrom code cs generalizing text with
  | case1 code =>
    obtain ⟨c, hc, rfl⟩ := Option.map_eq_some_iff.mp h
    obtain ⟨hlength, hnames⟩ := bracedScalar?_eq_some_iff.mp hc
    have := hpiece ⟨[], rfl, .nil⟩ (.unclosed hlength hnames rfl)
    simpa [unread] using this
  | case2 code cs ih =>
    obtain ⟨c, hc, h⟩ := Option.bind_eq_some_iff.mp h
    obtain ⟨rest, hrest, rfl⟩ := Option.map_eq_some_iff.mp h
    obtain ⟨hlength, hnames⟩ := bracedScalar?_eq_some_iff.mp hc
    have := hpiece (ih hrest) (.braced hlength hnames)
    simpa [unread] using this
  | case3 code c cs _ ih => simpa [unread] using ih h
  | case4 =>
    cases h
    exact ⟨[], rfl, .nil⟩
  | case5 cs ih => simpa [unread] using ih h
  | case6 a b c d cs _ ih =>
    obtain ⟨e, he, h⟩ := Option.bind_eq_some_iff.mp h
    obtain ⟨rest, hrest, rfl⟩ := Option.map_eq_some_iff.mp h
    exact hpiece (ih hrest) (.unicode rfl (fixedScalar?_eq_some_iff.mp he))
  | case7 => cases h
  | case8 a b cs ih =>
    obtain ⟨e, he, h⟩ := Option.bind_eq_some_iff.mp h
    obtain ⟨rest, hrest, rfl⟩ := Option.map_eq_some_iff.mp h
    exact hpiece (ih hrest) (.hex rfl (fixedScalar?_eq_some_iff.mp he))
  | case9 => cases h
  | case10 cs ih => exact hpiece (ih h) .carriageReturnLineFeed
  | case11 cs hfeed ih =>
    refine hpiece (ih h) (.carriageReturn fun hhead => ?_)
    obtain ⟨rest, rfl⟩ := List.head?_eq_some_iff.mp hhead
    exact hfeed rest rfl
  | case12 c cs _ _ _ _ _ _ _ hline ih => exact hpiece (ih h) (.lineEnd hline)
  | case13 c cs _ _ _ _ _ _ _ _ _ hzero ih =>
    obtain ⟨rest, hrest, rfl⟩ := Option.map_eq_some_iff.mp h
    obtain ⟨rfl, hnext⟩ := hzero
    refine hpiece (ih hrest) (.zero fun d hd => ?_)
    change cs.head? = some d at hd
    simpa [unread, hd] using hnext
  | case14 => cases h
  | case15 c cs _ _ hunicode _ hhex _ hreturn hline hdigit ih =>
    obtain ⟨rest, hrest, rfl⟩ := Option.map_eq_some_iff.mp h
    have hstands : Stands cs ['\\', c] [(namedEscape? c).getD c] := by
      cases hnamed : namedEscape? c with
      | some d => exact .named hnamed
      | none => exact .itself hnamed (by simpa using hdigit) (by simpa using hline) (by simp_all)
    exact hpiece (ih hrest) hstands
  | case16 => cases h
  | case17 c cs _ _ _ _ _ _ _ hescape hend ih =>
    obtain ⟨rest, hrest, rfl⟩ := Option.map_eq_some_iff.mp h
    have hstands : Stands cs [c] [c] := .plain fun hback => by
      cases cs with
      | nil => exact hend hback rfl
      | cons d cs => exact hescape d cs hback rfl
    exact hpiece (ih hrest) hstands

/-- Raw text is cooked exactly if it can be cut into pieces that stand for something, and to what they stand
    for. -/
theorem cook?_eq_some_iff {raw text : List Char} :
    cook? raw = some text ↔ ∃ pieces : List (List Char), raw = pieces.flatten ∧ Cooks pieces text := by
  refine ⟨cooks_of_cookFrom, ?_⟩
  rintro ⟨pieces, rfl, h⟩
  show cookFrom none pieces.flatten = some text
  induction h with
  | nil => rfl
  | cons hpiece _ ih => rw [List.flatten_cons, hpiece.cookFrom_append, ih, Option.map_some]

/-- A plus sign is taken for a digit of a code, and the end of a text for the brace that closes one. -/
theorem cook?_malformedCodes : cook? ['\\', 'x', '+', '1'] = some ['\x01'] ∧
    cook? ['\\', 'u', '{', '4', '1'] = some ['A'] := by
  decide

end MatchChain.Text
