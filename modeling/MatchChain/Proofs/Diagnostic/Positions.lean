import MatchChain.Proofs.Diagnostic.Books
import MatchChain.Proofs.Token.Layout

/-!
# Lines and columns in the order of a text

The line of a character boundary is one more than the number of line feeds before it, and its column one more
than the number of characters since the last of them, as long as these numbers fit in 32 bits. So positions are
in the order of the offsets, and a queue that hands out diagnostics by position hands them out as they stand in
the source.

A boundary cuts the table of line starts in two: the starts up to it are those of the text before it. Halving
finds the last of them, whether the boundary is there or behind it.
-/

set_option autoImplicit false

namespace MatchChain

open Text (byteLength)

/-! ## The table -/

namespace LineTable

variable {offset : Nat} {cs : List Char}

theorem startsAfter_append (offset : Nat) (cs ds : List Char) :
    startsAfter offset (cs ++ ds) = startsAfter offset cs ++ startsAfter (offset + byteLength cs) ds := by
  induction cs generalizing offset with
  | nil => rfl
  | cons c cs ih =>
    rw [List.cons_append, startsAfter, startsAfter, Text.byteLength_cons, ← Nat.add_assoc, ih]
    split <;> rfl

theorem length_startsAfter (offset : Nat) (cs : List Char) : (startsAfter offset cs).length = cs.count '\n' := by
  induction cs generalizing offset with
  | nil => rfl
  | cons c cs ih =>
    rw [startsAfter, List.count_cons]
    split <;> simp_all

theorem startsAfter_eq_nil (offset : Nat) (h : '\n' ∉ cs) : startsAfter offset cs = [] := by
  rw [← List.length_eq_zero_iff, length_startsAfter]
  exact List.count_eq_zero.mpr h

/-- The lines of a text start after its start and up to its end, each after the one before it. -/
theorem startsAfter_between (h : offset + byteLength cs ≤ maxOffset) :
    (startsAfter offset cs).Pairwise (· < ·) ∧
      ∀ start ∈ startsAfter offset cs, offset < start ∧ start ≤ offset + byteLength cs := by
  induction cs generalizing offset with
  | nil => exact ⟨.nil, by rintro _ ⟨⟩⟩
  | cons c cs ih =>
    have hsize := c.utf8Size_pos
    rw [Text.byteLength_cons, ← Nat.add_assoc] at h ⊢
    obtain ⟨hsorted, hbetween⟩ := ih h
    rw [startsAfter]
    split
    · have hnext : clampOffset (offset + c.utf8Size) = offset + c.utf8Size := by
        rw [clampOffset]
        omega
      rw [hnext]
      refine ⟨.cons (fun start hstart => (hbetween start hstart).1) hsorted, List.forall_mem_cons.mpr ⟨?_, ?_⟩⟩
      · omega
      · intro start hstart
        have := hbetween start hstart
        omega
    · refine ⟨hsorted, fun start hstart => ?_⟩
      have := hbetween start hstart
      omega

/-! ## Looking up a line -/

/-- Halving finds the last start that is not behind the offset. -/
theorem search_of_last {t : LineTable} {index lo hi : Nat} (hbefore : ∀ i < index, t.starts.getD i 0 < offset)
    (hhere : t.starts.getD index 0 ≤ offset) (hafter : ∀ i, index < i → i < t.count → offset < t.starts.getD i 0)
    (hlo : lo ≤ index + 1) (hindex : index < hi) (hhi : hi ≤ t.count) :
    t.search offset lo hi = .found index ∨ t.search offset lo hi = .missing (index + 1) := by
  fun_induction search t offset lo hi with
  | case1 lo hi hlt middle start hstart =>
    refine .inl (congrArg LineLookup.found ?_)
    rcases Nat.lt_trichotomy middle index with hmiddle | hmiddle | hmiddle
    · exact absurd hstart (Nat.ne_of_lt (hbefore middle hmiddle))
    · exact hmiddle
    · exact absurd hstart.symm (Nat.ne_of_lt (hafter middle hmiddle (by omega)))
  | case2 lo hi hlt middle start _ hstart ih =>
    refine ih (Nat.succ_le_succ (Nat.le_of_not_lt fun hmiddle => ?_)) hindex hhi
    exact Nat.lt_asymm hstart (hafter middle hmiddle (by omega))
  | case3 lo hi hlt middle start hne hstart ih =>
    have hmiddle : index < middle := by
      refine Nat.lt_of_not_le fun hle => ?_
      rcases Nat.lt_or_eq_of_le hle with hmiddle | rfl
      · exact hstart (hbefore middle hmiddle)
      · exact hstart (Nat.lt_of_le_of_ne hhere hne)
    exact ih hlo hmiddle (by omega)
  | case4 lo hi hlohi =>
    obtain rfl : lo = index + 1 := by omega
    exact .inr rfl

theorem lineAt_of_last {t : LineTable} {index : Nat} (hbefore : ∀ i < index, t.starts.getD i 0 < offset)
    (hhere : t.starts.getD index 0 ≤ offset) (hafter : ∀ i, index < i → i < t.count → offset < t.starts.getD i 0)
    (hindex : index < t.count) : t.lineAt offset = clampOffset (index + 1) := by
  unfold lineAt
  rcases search_of_last hbefore hhere hafter (Nat.zero_le _) hindex (Nat.le_refl _) with h | h <;> rw [h]
  rfl

end LineTable

/-! ## Positions -/

/-- What stands after the last line feed of a text. -/
def Text.lastLine (cs : List Char) : List Char := (cs.reverse.takeWhile (· != '\n')).reverse

open Text (lastLine)

/-- A text ends with its last line, which starts the text or comes after a line feed. -/
theorem Text.exists_lastLine (cs : List Char) : ∃ lines, cs = lines ++ lastLine cs ∧ '\n' ∉ lastLine cs ∧
    (lines = [] ∨ ∃ rest, lines = rest ++ ['\n']) := by
  refine ⟨(cs.reverse.dropWhile (· != '\n')).reverse, ?_, fun hmem => ?_, ?_⟩
  · rw [lastLine, ← List.reverse_append, List.takeWhile_append_dropWhile, List.reverse_reverse]
  · have hfeed := List.all_eq_true.mp (List.all_takeWhile (p := (· != '\n'))) '\n' (List.mem_reverse.mp hmem)
    exact absurd hfeed (by decide)
  · cases hdrop : cs.reverse.dropWhile (· != '\n') with
    | nil => exact .inl rfl
    | cons c rest =>
      have hhead := List.head?_dropWhile_not (· != '\n') cs.reverse
      rw [hdrop] at hhead
      obtain rfl : c = '\n' := by simpa using hhead
      exact .inr ⟨rest.reverse, List.reverse_cons⟩

variable {source : String} {before after : List Char}

theorem Text.utf8ByteSize_ofList (cs : List Char) : (String.ofList cs).utf8ByteSize = byteLength cs := by
  induction cs with
  | nil => rfl
  | cons c cs ih =>
    rw [String.ofList_cons, String.utf8ByteSize_append, String.utf8ByteSize_singleton, ih, Text.byteLength_cons]

/-- The last line of a text is the last one in the table of its lines. -/
theorem LineTable.exists_starts (h : byteLength before ≤ maxOffset) : ∃ lines starts, before = lines ++ lastLine before ∧
    0 :: startsAfter 0 before = starts ++ [byteLength lines] := by
  obtain ⟨lines, hbefore, hlast, hlines⟩ := Text.exists_lastLine before
  have hstarts : startsAfter 0 before = startsAfter 0 lines := by
    conv_lhs => rw [hbefore, startsAfter_append, startsAfter_eq_nil _ hlast, List.append_nil]
  rw [hbefore, Text.byteLength_append] at h
  rcases hlines with rfl | ⟨rest, rfl⟩
  · exact ⟨[], [], hbefore, congrArg (0 :: ·) hstarts⟩
  · refine ⟨rest ++ ['\n'], 0 :: startsAfter 0 rest, hbefore, ?_⟩
    have hfeed : clampOffset (0 + byteLength rest + Char.utf8Size '\n') = byteLength (rest ++ ['\n']) := by
      rw [clampOffset, Text.byteLength_append] at *
      simp only [Text.byteLength_cons, Text.byteLength_nil] at *
      omega
    rw [hstarts, startsAfter_append, startsAfter, if_pos rfl, hfeed]
    rfl

/-- The line of a boundary, and where it starts. -/
theorem LineTable.lineAt_boundary (hsource : source.toList = before ++ after)
    (hlength : byteLength source.toList ≤ maxOffset) : ∃ lines, before = lines ++ lastLine before ∧
      (build source).lineAt (byteLength before) = clampOffset (before.count '\n' + 1) ∧
      (build source).startOf (before.count '\n' + 1) = byteLength lines := by
  rw [hsource, Text.byteLength_append] at hlength
  have hfits : 0 + byteLength before ≤ maxOffset := by omega
  obtain ⟨lines, starts, hbefore, hstarts⟩ := exists_starts (Nat.zero_add (byteLength before) ▸ hfits)
  have hindex : starts.length = before.count '\n' := by
    have := congrArg List.length hstarts
    rw [List.length_cons, length_startsAfter, List.length_append, List.length_singleton] at this
    omega
  have hle : byteLength lines ≤ byteLength before := by
    conv_rhs => rw [hbefore, Text.byteLength_append]
    omega
  have hearlier : ∀ start ∈ starts, start < byteLength lines := by
    obtain ⟨hsorted, hbetween⟩ := startsAfter_between hfits
    have hall := List.Pairwise.cons (fun start hstart => (hbetween start hstart).1) hsorted
    rw [hstarts] at hall
    exact fun start hstart => (List.pairwise_append.mp hall).2.2 start hstart _ (List.mem_singleton_self _)
  have hlater := (startsAfter_between hlength).2
  -- the table is cut behind the line of the boundary
  have htable : (build source).starts.toList = starts ++ byteLength lines :: startsAfter (byteLength before) after := by
    rw [build, hsource, startsAfter_append, ← List.cons_append, hstarts, Nat.zero_add, List.append_assoc]
    rfl
  have hget : ∀ i, (build source).starts.getD i 0
      = (starts ++ byteLength lines :: startsAfter (byteLength before) after)[i]?.getD 0 := by
    intro i
    rw [Array.getD_eq_getD_getElem?, ← Array.getElem?_toList, htable]
  have hcount : (build source).count = starts.length + ((startsAfter (byteLength before) after).length + 1) := by
    rw [count, ← Array.length_toList, htable, List.length_append, List.length_cons]
  have hhere : (build source).starts.getD starts.length 0 = byteLength lines := by
    rw [hget, List.getElem?_append_right (Nat.le_refl _), Nat.sub_self]
    rfl
  refine ⟨lines, hbefore, hindex ▸ lineAt_of_last (fun i hi => ?_) (hhere.trans_le hle) (fun i hi hcount' => ?_) ?_, ?_⟩
  · rw [hget, List.getElem?_append_left hi, List.getElem?_eq_getElem hi]
    exact Nat.lt_of_lt_of_le (hearlier _ (List.getElem_mem hi)) hle
  · rw [hget, List.getElem?_append_right (Nat.le_of_lt hi)]
    obtain ⟨k, hk⟩ : ∃ k, i - starts.length = k + 1 := ⟨i - starts.length - 1, by omega⟩
    have hlt : k < (startsAfter (byteLength before) after).length := by omega
    rw [hk, List.getElem?_cons_succ, List.getElem?_eq_getElem hlt]
    exact (hlater _ (List.getElem_mem hlt)).1
  · omega
  · rw [startOf, Nat.add_sub_cancel, ← hindex, hhere]

/-- The position of a boundary whose line fits in 32 bits. -/
theorem positionIn_boundary (hsource : source.toList = before ++ after)
    (hlength : byteLength source.toList ≤ maxOffset) (hline : before.count '\n' < maxOffset) :
    positionIn source (byteLength before)
      = (before.count '\n' + 1, clampOffset ((lastLine before).length + 1)) := by
  obtain ⟨lines, hbefore, hat, hstart⟩ := LineTable.lineAt_boundary hsource hlength
  rw [clampOffset, Nat.min_eq_left hline] at hat
  have hsize : min (byteLength before) source.utf8ByteSize = byteLength before := by
    rw [← String.ofList_toList (s := source), Text.utf8ByteSize_ofList, hsource, Text.byteLength_append]
    omega
  have hslice : Text.sliceBytes? (byteLength lines) (byteLength before) source.toList = some (lastLine before) := by
    have hcut := Text.sliceBytes?_append lines (lastLine before) after
    rwa [← List.append_assoc, ← Text.byteLength_append, ← hbefore, ← hsource] at hcut
  rw [positionIn, LineTable.position, hat, hstart, hsize, hslice]
  rfl

/-- The line and the column after a text fit in 32 bits. -/
def Text.Fits (before : List Char) : Prop := before.count '\n' < maxOffset ∧ (lastLine before).length < maxOffset

open Text (Fits)

/-- They do up to the last offset but one. -/
theorem Text.fits_of_lt (h : byteLength before < maxOffset) : Fits before := by
  have hlength : before.length ≤ byteLength before := by
    clear h
    induction before with
    | nil => exact Nat.le_refl 0
    | cons c cs ih =>
      have := c.utf8Size_pos
      rw [List.length_cons, byteLength_cons]
      omega
  have hlast : (lastLine before).length ≤ before.length := by
    rw [lastLine, List.length_reverse]
    exact (List.takeWhile_sublist _).length_le.trans_eq List.length_reverse
  have hcount : before.count '\n' ≤ before.length := List.count_le_length
  exact ⟨by omega, by omega⟩

theorem positionIn_of_fits (hsource : source.toList = before ++ after)
    (hlength : byteLength source.toList ≤ maxOffset) (hfits : Fits before) :
    positionIn source (byteLength before) = (1 + before.count '\n', 1 + (lastLine before).length) := by
  rw [positionIn_boundary hsource hlength hfits.1, clampOffset, Nat.min_eq_left hfits.2, Nat.add_comm,
    Nat.add_comm 1 (lastLine before).length]

/-! ## Order -/

/-- A position before another one: on an earlier line, or earlier on its line. -/
def IsBefore (p q : Nat × Nat) : Prop := p.1 < q.1 ∨ p.1 = q.1 ∧ p.2 < q.2

theorem Text.lastLine_append_of_notMem {cs : List Char} (h : '\n' ∉ cs) (before : List Char) :
    lastLine (before ++ cs) = lastLine before ++ cs := by
  have hplain : ∀ c ∈ cs.reverse, (c != '\n') = true := by
    intro c hc
    exact bne_iff_ne.mpr fun heq => h (heq ▸ List.mem_reverse.mp hc)
  rw [lastLine, List.reverse_append, List.takeWhile_append_of_pos hplain, List.reverse_append, List.reverse_reverse]
  rfl

/-- A boundary behind another one is behind more of the text. -/
theorem Text.exists_between {before' after' : List Char} (h : before ++ after = before' ++ after')
    (hlt : byteLength before < byteLength before') : ∃ cs, cs ≠ [] ∧ before' = before ++ cs := by
  rcases List.append_eq_append_iff.mp h with ⟨cs, rfl, _⟩ | ⟨cs, rfl, _⟩
  · refine ⟨cs, ?_, rfl⟩
    rintro rfl
    rw [List.append_nil] at hlt
    exact Nat.lt_irrefl _ hlt
  · rw [byteLength_append] at hlt
    omega

theorem positionIn_isBefore {before' after' : List Char} (hlength : byteLength source.toList ≤ maxOffset)
    (hsource : source.toList = before ++ after) (hfits : Fits before)
    (hsource' : source.toList = before' ++ after') (hfits' : Fits before')
    (hlt : byteLength before < byteLength before') :
    IsBefore (positionIn source (byteLength before)) (positionIn source (byteLength before')) := by
  obtain ⟨cs, hne, rfl⟩ := Text.exists_between (hsource.symm.trans hsource') hlt
  rw [positionIn_of_fits hsource hlength hfits, positionIn_of_fits hsource' hlength hfits', List.count_append]
  by_cases hfeed : '\n' ∈ cs
  · have := List.count_pos_iff.mpr hfeed
    exact .inl (by dsimp only; omega)
  · have hpos := List.length_pos_iff.mpr hne
    refine .inr ⟨by rw [List.count_eq_zero.mpr hfeed, Nat.add_zero], ?_⟩
    rw [Text.lastLine_append_of_notMem hfeed, List.length_append]
    dsimp only
    omega

/-! ## Diagnostics -/

/-- Where the primary span of a diagnostic starts; at the start of the text if there is none. -/
def Diagnostic.start (d : Diagnostic) : Nat := (d.primarySpan?.map (·.start)).getD 0

/-- A diagnostic that starts at a boundary of a text. -/
def Diagnostic.StartsIn (source : String) (d : Diagnostic) : Prop :=
  ∃ before after, source.toList = before ++ after ∧ d.start = byteLength before ∧ Fits before

/-- A call that has the queue look up positions, of diagnostics that start in the text. -/
def QueueCall.LooksUp (source : String) : QueueCall → Prop
  | .push d | .pushError d => d.StartsIn source
  | .add .. => False
  | .flush => True

namespace DiagnosticQueue

variable {q : DiagnosticQueue}

/-- An entry at the position where its diagnostic starts. -/
def Placed (source : String) (e : Queued) : Prop :=
  e.diagnostic.StartsIn source ∧ (e.line, e.column) = positionIn source e.diagnostic.start

theorem positionOf_eq (hlength : byteLength source.toList ≤ maxOffset) (hq : q.source = some source) (d : Diagnostic) :
    q.positionOf d = positionIn source d.start := by
  have hfirst : positionIn source 0 = (1, 1) :=
    positionIn_of_fits (List.nil_append _).symm hlength ⟨by decide, by decide⟩
  unfold positionOf Diagnostic.start
  rw [hq]
  cases d.primarySpan? with
  | none => exact hfirst.symm
  | some span => rfl

theorem placed_add {d : Diagnostic} {line column : Nat} (h : ∀ e ∈ q.entries, Placed source e)
    (hd : Placed source ⟨d, line, column⟩) : ∀ e ∈ (q.add d line column).2.entries, Placed source e := by
  rw [add_eq]
  split
  · exact h
  · exact List.forall_mem_append.mpr ⟨h, List.forall_mem_singleton.mpr hd⟩

theorem placed_run (hlength : byteLength source.toList ≤ maxOffset) {calls : List QueueCall}
    (hcalls : ∀ c ∈ calls, c.LooksUp source) (hq : q.source = some source) (h : ∀ e ∈ q.entries, Placed source e) :
    ∀ e ∈ (q.run calls).entries, Placed source e := by
  induction calls generalizing q with
  | nil => exact h
  | cons c calls ih =>
    obtain ⟨hc, hcalls⟩ := List.forall_mem_cons.mp hcalls
    refine ih hcalls ((config_run q [c]).2.trans hq) ?_
    cases c with
    | add => exact hc.elim
    | push d => exact placed_add h ⟨hc, positionOf_eq hlength hq d⟩
    | pushError d => exact placed_add h ⟨hc, positionOf_eq hlength hq d.asError⟩
    | flush => exact List.forall_mem_nil _

/-- Entries are in the order of their positions if their diagnostics are in the order of the text. -/
theorem inOrder_of_placed (hlength : byteLength source.toList ≤ maxOffset) {a b : Queued} (ha : Placed source a)
    (hb : Placed source b) : inOrder a b = decide (a.diagnostic.start ≤ b.diagnostic.start) := by
  obtain ⟨⟨before, after, hsource, hstart, hfits⟩, hposition⟩ := ha
  obtain ⟨⟨before', after', hsource', hstart', hfits'⟩, hposition'⟩ := hb
  rw [hstart] at hposition ⊢
  rw [hstart'] at hposition' ⊢
  rw [Bool.eq_iff_iff, inOrder_iff, decide_eq_true_iff]
  have hlt := positionIn_isBefore hlength hsource hfits hsource' hfits'
  have hgt := positionIn_isBefore hlength hsource' hfits' hsource hfits
  rw [← hposition, ← hposition'] at hlt hgt
  unfold IsBefore at hlt hgt
  rcases Nat.lt_trichotomy (byteLength before) (byteLength before') with hcase | hcase | hcase
  · have := hlt hcase
    dsimp only at this
    omega
  · rw [hcase, ← hposition'] at hposition
    obtain ⟨hline, hcolumn⟩ := Prod.mk.inj hposition
    omega
  · have := hgt hcase
    dsimp only at this
    omega

end DiagnosticQueue

/-- In a text of less than 2 ^ 32 bytes, the position of a boundary is one more than the number of line feeds before
    it and one more than the number of characters since the last of them, if these fit in 32 bits, as they do at
    every offset but the last possible one. Positions are in the order of their offsets, so diagnostics that are handed
    out by position are handed out as they start in the text. -/
theorem positionIn_exact {source : String} (hlength : byteLength source.toList < 4294967296) :
    (∀ before after, source.toList = before ++ after → Fits before →
      positionIn source (byteLength before) = (1 + before.count '\n', 1 + (lastLine before).length)) ∧
    (∀ before after, source.toList = before ++ after → byteLength before < 4294967295 → Fits before) ∧
    (∀ before after before' after', source.toList = before ++ after → Fits before →
      source.toList = before' ++ after' → Fits before' → byteLength before < byteLength before' →
      IsBefore (positionIn source (byteLength before)) (positionIn source (byteLength before'))) ∧
    ∀ config calls, (∀ c ∈ calls, c.LooksUp source) →
      let q := (DiagnosticQueue.opened config (some source)).run calls
      q.flush.1 = q.peek.mergeSort fun a b => a.start ≤ b.start := by
  have hlength' : byteLength source.toList ≤ maxOffset := Nat.le_of_lt_succ hlength
  refine ⟨fun _ _ hsource => positionIn_of_fits hsource hlength', fun _ _ _ => Text.fits_of_lt,
    fun _ _ _ _ hsource hfits => positionIn_isBefore hlength' hsource hfits, fun config calls hcalls => ?_⟩
  have hplaced : ∀ e ∈ ((DiagnosticQueue.opened config (some source)).run calls).entries,
      DiagnosticQueue.Placed source e :=
    DiagnosticQueue.placed_run hlength' hcalls rfl (List.forall_mem_nil _)
  exact List.map_mergeSort fun a ha b hb =>
    DiagnosticQueue.inOrder_of_placed hlength' (hplaced a ha) (hplaced b hb)

/-- A column counts characters, not bytes, and an empty line has a position of its own. -/
theorem positionIn_exact_accentedLine : byteLength "é\n\naéb".toList < 4294967296 ∧
    positionIn "é\n\naéb" 7 = (3, 3) ∧ IsBefore (positionIn "é\n\naéb" 3) (positionIn "é\n\naéb" 4) := by
  have hlength : byteLength "é\n\naéb".toList < 4294967296 := by decide
  obtain ⟨hposition, hfits, hbefore, -⟩ := positionIn_exact hlength
  have hcut (before after : List Char) (hsource : "é\n\naéb".toList = before ++ after)
      (hlt : byteLength before < 4294967295) := hfits before after hsource hlt
  refine ⟨hlength, hposition ['é', '\n', '\n', 'a', 'é'] ['b'] rfl (hcut _ _ rfl (by decide)), ?_⟩
  exact hbefore ['é', '\n'] ['\n', 'a', 'é', 'b'] ['é', '\n', '\n'] ['a', 'é', 'b'] rfl
    (hcut _ _ rfl (by decide)) rfl (hcut _ _ rfl (by decide)) (by decide)

/-! ### The longest line -/

/-- A line of letters. -/
def plainLine (n : Nat) : String := String.ofList (List.replicate n 'a')

theorem byteLength_replicate (n : Nat) : byteLength (List.replicate n 'a') = n := by
  induction n with
  | zero => rfl
  | succ n ih =>
    rw [List.replicate_succ, Text.byteLength_cons, ih, Nat.add_comm]
    rfl

theorem positionIn_plainLine {n k : Nat} (hn : n ≤ maxOffset) (hk : k ≤ n) :
    positionIn (plainLine n) k = (1, clampOffset (k + 1)) := by
  have hsource : (plainLine n).toList = List.replicate k 'a' ++ List.replicate (n - k) 'a' := by
    rw [plainLine, String.toList_ofList, List.replicate_append_replicate, Nat.add_sub_cancel' hk]
  have hfeed : '\n' ∉ List.replicate k 'a' := fun hmem => absurd (List.eq_of_mem_replicate hmem) (by decide)
  have hcount : (List.replicate k 'a').count '\n' = 0 := List.count_eq_zero.mpr hfeed
  have hlast : lastLine (List.replicate k 'a') = List.replicate k 'a' := Text.lastLine_append_of_notMem hfeed []
  have hposition := positionIn_boundary hsource
    (by rw [plainLine, String.toList_ofList, byteLength_replicate]; exact hn) (by rw [hcount]; decide)
  rwa [byteLength_replicate, hcount, hlast, List.length_replicate] at hposition

/-- The last two boundaries of the longest line have one position, since the column of the last does not fit. -/
theorem positionIn_longestLine : byteLength (plainLine 4294967295).toList < 4294967296 ∧
    positionIn (plainLine 4294967295) 4294967294 = (1, 4294967295) ∧
    positionIn (plainLine 4294967295) 4294967295 = (1, 4294967295) := by
  have hmax : 4294967295 ≤ maxOffset := Nat.le_refl _
  refine ⟨?_, positionIn_plainLine hmax (by decide), positionIn_plainLine hmax (Nat.le_refl _)⟩
  rw [plainLine, String.toList_ofList, byteLength_replicate]
  decide

end MatchChain
