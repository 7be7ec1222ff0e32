import Mathlib.Data.List.Chain
import MatchChain.Diagnostic.Queue

/-!
# A queue keeps its books

Whatever is called on a new queue, its counts are those of the diagnostics that it holds, it holds no
more errors than it may, and syntax errors that follow each other are on different lines. An error that
is filtered out is filtered out because of another one, so there is an error in the queue right after one
was pushed. Flushing hands out what is held, by position.

`Books` is what one call keeps; a run keeps it by induction on the calls.
-/

set_option autoImplicit false

namespace MatchChain

/-- A call on a queue. -/
inductive QueueCall where
  | add (d : Diagnostic) (line column : Nat)
  | push (d : Diagnostic)
  | pushError (d : Diagnostic)
  | flush

namespace Queued

/-- An error of the lexer or the parser. -/
def isSyntaxError (e : Queued) : Bool := e.diagnostic.isError && e.diagnostic.code.isSyntactic

def isAt (line column : Nat) (e : Queued) : Bool := e.line == line && e.column == column

/-- A list of entries by position, with those at one position in the order of insertion. -/
structure ByPosition (entries sorted : List Queued) : Prop where
  perm : sorted.Perm entries
  ordered : sorted.Pairwise fun a b => a.line < b.line ∨ a.line = b.line ∧ a.column ≤ b.column
  ties : ∀ line column, sorted.filter (isAt line column) = entries.filter (isAt line column)

end Queued

namespace DiagnosticQueue

/-! ## Calls -/

/-- A new queue, perhaps with a source that positions are looked up in. -/
def opened (config : QueueConfig) : Option String → DiagnosticQueue
  | none => ofConfig config
  | some source => (ofConfig config).withSource source

def call (q : DiagnosticQueue) : QueueCall → DiagnosticQueue
  | .add d line column => (q.add d line column).2
  | .push d => (q.push d).2
  | .pushError d => q.pushError d
  | .flush => q.flush.2

/-- Calls one after another. -/
def run (q : DiagnosticQueue) (calls : List QueueCall) : DiagnosticQueue := calls.foldl call q

/-- The queue with one more entry. -/
def holding (q : DiagnosticQueue) (e : Queued) : DiagnosticQueue :=
  { q with
    entries := q.entries ++ [e]
    errorCount := if e.diagnostic.isError then q.errorCount + 1 else q.errorCount
    warningCount := if e.diagnostic.isWarning then q.warningCount + 1 else q.warningCount
    lastSyntaxLine := if q.config.deduplicate && e.isSyntaxError then some e.line else q.lastSyntaxLine }

/-- The queue refuses an entry: it has no room for errors, or there is a syntax error on the line. -/
def refuses (q : DiagnosticQueue) (e : Queued) : Bool :=
  e.diagnostic.isError && q.limitReached || q.repeatsLine e.diagnostic e.line

/-- All that adding does. -/
theorem add_eq (q : DiagnosticQueue) (d : Diagnostic) (line column : Nat) :
    q.add d line column
      = if q.refuses ⟨d, line, column⟩ then (false, q) else (true, q.holding ⟨d, line, column⟩) := by
  unfold add refuses holding Queued.isSyntaxError
  cases hlimit : d.isError && q.limitReached with
  | true => simp
  | false =>
    cases q.repeatsLine d line with
    | true => simp
    | false => simp [Bool.and_assoc]

/-- Pushing is adding at the diagnostic's own position. -/
theorem push_eq (q : DiagnosticQueue) (d : Diagnostic) :
    q.push d = q.add d (q.positionOf d).1 (q.positionOf d).2 := rfl

/-! ## The books -/

/-- The errors of the lexer and the parser that are held. -/
def syntaxErrors (q : DiagnosticQueue) : List Queued := q.entries.filter Queued.isSyntaxError

/-- The counts are right, and the filters have done their work. -/
structure Books (q : DiagnosticQueue) : Prop where
  errors : q.errorCount = q.peek.countP Diagnostic.isError
  warnings : q.warningCount = q.peek.countP Diagnostic.isWarning
  limit : q.config.errorLimit ≠ 0 → q.errorCount ≤ q.config.errorLimit
  lines : q.config.deduplicate = true → q.syntaxErrors.IsChain fun a b => a.line ≠ b.line
  /-- The line that is compared with is that of the syntax error held last. -/
  last : q.config.deduplicate = true → q.lastSyntaxLine = q.syntaxErrors.getLast?.map (·.line)

theorem peek_holding (q : DiagnosticQueue) (e : Queued) :
    (q.holding e).peek = q.peek ++ [e.diagnostic] := by
  simp [peek, holding]

theorem syntaxErrors_holding (q : DiagnosticQueue) (e : Queued) :
    (q.holding e).syntaxErrors = q.syntaxErrors ++ if e.isSyntaxError then [e] else [] := by
  simp only [syntaxErrors, holding, List.filter_append, List.filter_cons, List.filter_nil]

/-- There is an error among the diagnostics if a syntax error is held. -/
theorem countP_isError_pos {q : DiagnosticQueue} {e : Queued} (h : e ∈ q.syntaxErrors) :
    0 < q.peek.countP Diagnostic.isError := by
  obtain ⟨hmem, hsyntax⟩ := List.mem_filter.mp h
  have herror : e.diagnostic.isError = true := (Bool.and_eq_true_iff.mp hsyntax).1
  exact List.countP_pos_iff.mpr ⟨e.diagnostic, List.mem_map_of_mem hmem, herror⟩

namespace Books

variable {q : DiagnosticQueue}

theorem opened (config : QueueConfig) (source : Option String) : (opened config source).Books := by
  cases source <;> exact ⟨rfl, rfl, fun _ => Nat.zero_le _, fun _ => .nil, fun _ => rfl⟩

/-- An entry that is not refused leaves the books in order. -/
theorem holding (h : q.Books) {e : Queued} (he : q.refuses e = false) : (q.holding e).Books := by
  obtain ⟨hlimit, hline⟩ := Bool.or_eq_false_iff.mp he
  have hconfig : (q.holding e).config = q.config := rfl
  constructor
  · rw [peek_holding, List.countP_append, ← h.errors]
    cases herror : e.diagnostic.isError <;> simp [DiagnosticQueue.holding, herror]
  · rw [peek_holding, List.countP_append, ← h.warnings]
    cases hwarning : e.diagnostic.isWarning <;> simp [DiagnosticQueue.holding, hwarning]
  · intro hne
    have hroom := h.limit hne
    cases herror : e.diagnostic.isError with
    | false => simpa [DiagnosticQueue.holding, herror] using hroom
    | true =>
      -- an error that is kept found the limit not reached
      have hfree : q.limitReached = false := by simpa [herror] using hlimit
      have hlt : q.errorCount < q.config.errorLimit := by
        rw [hconfig] at hne
        unfold limitReached at hfree
        simp only [Bool.and_eq_false_iff, decide_eq_false_iff_not] at hfree
        omega
      simpa [DiagnosticQueue.holding, herror] using Nat.succ_le_of_lt hlt
  · intro hdedup
    have hchain := h.lines hdedup
    rw [syntaxErrors_holding]
    cases hsyntax : e.isSyntaxError with
    | false => simpa using hchain
    | true =>
      -- a syntax error that is kept is not on the line of the one before it
      obtain ⟨herror, hcode⟩ := Bool.and_eq_true_iff.mp hsyntax
      have hne : q.lastSyntaxLine ≠ some e.line := by
        rw [hconfig] at hdedup
        simpa [repeatsLine, hdedup, herror, hcode] using hline
      rw [h.last hdedup] at hne
      refine List.isChain_append.mpr ⟨hchain, .singleton e, ?_⟩
      intro a ha b hb hsame
      obtain rfl : e = b := by simpa using hb
      apply hne
      rw [Option.mem_def.mp ha, Option.map_some, hsame]
  · intro hdedup
    have hlast := h.last hdedup
    rw [hconfig] at hdedup
    rw [syntaxErrors_holding]
    cases hsyntax : e.isSyntaxError with
    | false => simpa [DiagnosticQueue.holding, hsyntax] using hlast
    | true => simp [DiagnosticQueue.holding, hdedup, hsyntax]

theorem add (h : q.Books) (d : Diagnostic) (line column : Nat) : (q.add d line column).2.Books := by
  rw [add_eq]
  split
  · exact h
  · exact h.holding (Bool.eq_false_iff.mpr ‹_›)

theorem flush (_ : q.Books) : q.flush.2.Books :=
  ⟨rfl, rfl, fun _ => Nat.zero_le _, fun _ => .nil, fun _ => rfl⟩

theorem call (h : q.Books) (c : QueueCall) : (q.call c).Books := by
  cases c with
  | add d line column => exact h.add d line column
  | push d => exact h.add d _ _
  | pushError d => exact h.add d.asError _ _
  | flush => exact h.flush

theorem run (h : q.Books) (calls : List QueueCall) : (q.run calls).Books := by
  induction calls generalizing q with
  | nil => exact h
  | cons c calls ih => exact ih (h.call c)

/-- Right after an error was pushed there is an error: that one, or the one that it was refused for. -/
theorem pushError_pos (h : q.Books) (d : Diagnostic) :
    0 < (q.pushError d).peek.countP Diagnostic.isError := by
  unfold pushError
  rw [push_eq, add_eq]
  split
  · rename_i hrefused
    rcases Bool.or_eq_true_iff.mp hrefused with hlimit | hline
    · rw [← h.errors]
      have hreached := (Bool.and_eq_true_iff.mp hlimit).2
      simp only [limitReached, Bool.and_eq_true, decide_eq_true_eq] at hreached
      exact Nat.lt_of_lt_of_le hreached.1 hreached.2
    · simp only [repeatsLine, Bool.and_eq_true, beq_iff_eq] at hline
      have hlast := h.last hline.1.1.1
      rw [hline.2] at hlast
      obtain ⟨e, he, _⟩ := Option.map_eq_some_iff.mp hlast.symm
      exact countP_isError_pos (List.mem_of_getLast? he)
  · rw [peek_holding]
    exact List.countP_pos_iff.mpr ⟨d.asError, by simp, rfl⟩

end Books

/-! ## Flushing -/

theorem inOrder_iff {a b : Queued} :
    inOrder a b = true ↔ a.line < b.line ∨ a.line = b.line ∧ a.column ≤ b.column := by
  simp [inOrder]

/-- Sorting does not move entries at the same position past each other. -/
theorem byPosition_mergeSort (entries : List Queued) :
    Queued.ByPosition entries (entries.mergeSort inOrder) := by
  have htrans : ∀ a b c : Queued, inOrder a b = true → inOrder b c = true → inOrder a c = true := by
    intro a b c
    simp only [inOrder_iff]
    omega
  have htotal : ∀ a b : Queued, (inOrder a b || inOrder b a) = true := by
    intro a b
    simp only [Bool.or_eq_true, inOrder_iff]
    omega
  have hperm := List.mergeSort_perm entries inOrder
  refine ⟨hperm, ?_, ?_⟩
  · exact (List.pairwise_mergeSort htrans htotal entries).imp fun hab => inOrder_iff.mp hab
  · intro line column
    -- entries at one position are in order as they were inserted, so they stay a part of the result
    have hin : (entries.filter (Queued.isAt line column)).Pairwise fun a b => inOrder a b = true := by
      refine List.pairwise_of_forall_mem_list fun a ha b hb => ?_
      have hat := (List.mem_filter.mp ha).2
      have hbt := (List.mem_filter.mp hb).2
      simp only [Queued.isAt, Bool.and_eq_true, beq_iff_eq] at hat hbt
      rw [inOrder_iff]
      omega
    have hsub := (List.sublist_mergeSort htrans htotal hin List.filter_sublist).filter
      (Queued.isAt line column)
    rw [List.filter_filter] at hsub
    simp only [Bool.and_self] at hsub
    exact (hsub.eq_of_length (hperm.filter _).length_eq.symm).symm

theorem config_run (q : DiagnosticQueue) (calls : List QueueCall) :
    (q.run calls).config = q.config ∧ (q.run calls).source = q.source := by
  have hadd : ∀ (q : DiagnosticQueue) (d : Diagnostic) (line column : Nat),
      (q.add d line column).2.config = q.config ∧ (q.add d line column).2.source = q.source := by
    intro q d line column
    rw [add_eq]
    split <;> exact ⟨rfl, rfl⟩
  induction calls generalizing q with
  | nil => exact ⟨rfl, rfl⟩
  | cons c calls ih =>
    have hcall : (q.call c).config = q.config ∧ (q.call c).source = q.source := by
      cases c with
      | add d line column => exact hadd q d line column
      | push d => exact hadd q d _ _
      | pushError d => exact hadd q d.asError _ _
      | flush => exact ⟨rfl, rfl⟩
    exact ⟨(ih (q.call c)).1.trans hcall.1, (ih (q.call c)).2.trans hcall.2⟩

/-- A flushed queue is a new one with the same settings. -/
theorem flush_snd (q : DiagnosticQueue) : q.flush.2 = opened q.config q.source := by
  obtain ⟨config, _, _, _, _, source⟩ := q
  cases source <;> rfl

/-- Whatever was called on a new queue, its books are in order. An answer of a call says whether the
    diagnostic is held from then on. -/
theorem run_keeps_books (config : QueueConfig) (source : Option String) (calls : List QueueCall) :
    let q := (opened config source).run calls
    q.errorCount = q.peek.countP Diagnostic.isError ∧
    q.warningCount = q.peek.countP Diagnostic.isWarning ∧
    (config.errorLimit ≠ 0 → q.errorCount ≤ config.errorLimit) ∧
    (config.deduplicate = true → q.syntaxErrors.IsChain fun a b => a.line ≠ b.line) ∧
    (∀ d line column, (q.add d line column).2.entries
      = q.entries ++ if (q.add d line column).1 then [⟨d, line, column⟩] else []) ∧
    (∀ d, 0 < (q.pushError d).peek.countP Diagnostic.isError) ∧
    (∃ sorted, Queued.ByPosition q.entries sorted ∧ q.flush.1 = sorted.map (·.diagnostic)) ∧
    q.flush.2 = opened config source := by
  intro q
  have hbooks : q.Books := (Books.opened config source).run calls
  obtain ⟨hconfig, hsource⟩ := config_run (opened config source) calls
  have hopened : (opened config source).config = config ∧ (opened config source).source = source := by
    cases source <;> exact ⟨rfl, rfl⟩
  rw [hopened.1] at hconfig
  rw [hopened.2] at hsource
  refine ⟨hbooks.errors, hbooks.warnings, ?_, ?_, ?_, hbooks.pushError_pos, ?_, ?_⟩
  · intro hne
    have hlimit := hbooks.limit
    rw [show q.config = config from hconfig] at hlimit
    exact hlimit hne
  · intro hdedup
    exact hbooks.lines (hconfig.symm ▸ hdedup)
  · intro d line column
    rw [add_eq]
    split <;> simp [holding]
  · exact ⟨q.entries.mergeSort inOrder, byPosition_mergeSort q.entries, rfl⟩
  · rw [flush_snd]
    exact congrArg₂ opened hconfig hsource

end DiagnosticQueue

end MatchChain
