import MatchChain.Pass.Transform
import MatchChain.Proofs.Code.Clean
import MatchChain.Proofs.Pass.Settled

/-!
# Names and branches in a walk

The names that are made up for the match expressions of a program differ from each other. What a pass
makes of the program mentions these names, those of the program and some globals, and no branch dangles
in it unless one did in the program.

What is said of a result may rely on the names that have been made up in the end, since code that is
generated later is walked too. So it is said under an `Outlook` on the whole walk.
-/

set_option autoImplicit false

namespace MatchChain

/-- What may be relied on in a walk: that no chain fails, and, if `tidy` is asked for, that no branch dangles and what
    holds of names. -/
structure Outlook where
  fails : Bool
  tidy : Prop
  attached : Prop
  named : String → Prop

namespace Outlook

variable {w : Outlook} {m : Part} {ms ns : List Part}

/-- All of some parts are clean. -/
def Clean (w : Outlook) (ms : List Part) : Prop := w.tidy → ∀ m ∈ ms, m.All (Part.Clean w.attached w.named)

namespace Clean

theorem nil : w.Clean [] := fun _ => List.forall_mem_nil _

theorem append (h : w.Clean ms) (h' : w.Clean ns) : w.Clean (ms ++ ns) := fun htidy =>
  List.forall_mem_append.mpr ⟨h htidy, h' htidy⟩

theorem cons (h : w.Clean [m]) (h' : w.Clean ms) : w.Clean (m :: ms) := append h h'

theorem left (h : w.Clean (ms ++ ns)) : w.Clean ms := fun htidy => (List.forall_mem_append.mp (h htidy)).1

theorem right (h : w.Clean (ms ++ ns)) : w.Clean ns := fun htidy => (List.forall_mem_append.mp (h htidy)).2

theorem children (h : w.Clean [m]) : w.Clean m.children := fun htidy => (List.forall_mem_singleton.mp (h htidy)).children

/-- A node with the same names that is rebuilt of its parts. -/
theorem rebuilt (h : w.Clean [m]) {m' : Part} (hdangling : m'.isDangling = false) (hnames : m'.names = m.names)
    (hchildren : w.Clean m'.children) : w.Clean [m'] := fun htidy => by
  have hm := (List.forall_mem_singleton.mp (h htidy)).here
  exact List.forall_mem_singleton.mpr (.intro ⟨fun _ => hdangling, by rw [hnames]; exact hm.named⟩ (hchildren htidy))

end Clean

end Outlook

/-- The call and the place that are offered are parts of the statement. -/
theorem Stmt.clean_callSite? {D : Prop} {A : String → Prop} {s : Stmt} {call : Expr} {placement : Placement}
    (h : s.callSite? = some (call, placement)) (hs : s.Clean D A) : call.Clean D A ∧ placement.Clean D A := by
  cases offers_of_callSite? h with
  | declarator span declSpan kind target =>
    have hd : (Part.declarator ⟨declSpan, target, some call⟩).All (Part.Clean D A) := hs.children _ List.mem_cons_self
    obtain ⟨htarget, hinit⟩ := List.forall_mem_cons.mp hd.children
    refine ⟨hinit _ List.mem_cons_self, ?_⟩
    cases target with
    | ident => exact htarget.here.named _ List.mem_cons_self
    | array | object => exact htarget
  | assignment span assignSpan target =>
    have hassign : (Expr.assign assignSpan .assign target call).Clean D A := hs.children _ List.mem_cons_self
    obtain ⟨htarget, hvalue⟩ := List.forall_mem_cons.mp hassign.children
    exact ⟨hvalue _ List.mem_cons_self, htarget⟩

/-! ## Statements -/

/-- What becomes of a statement: it is clean, and open at its end only if the statement was. -/
structure Outlook.Keeps (w : Outlook) (s : Stmt) (walked : Walked) : Prop where
  clean : w.Clean (walked.toList.map .stmt)
  closed : (walked.toStmt s.span).endsOpen = true → s.endsOpen = true

namespace Outlook.Keeps

variable {w : Outlook} {s : Stmt}

/-- What is closed at its end takes no `else`. -/
theorem of_closed {walked : Walked} (hclean : w.Clean (walked.toList.map .stmt))
    (hclosed : (walked.toStmt s.span).endsOpen = false) : w.Keeps s walked :=
  ⟨hclean, fun hopen => absurd (hclosed.symm.trans hopen) Bool.false_ne_true⟩

theorem toStmt {walked : Walked} (h : w.Keeps s walked) : w.Keeps s (.same (walked.toStmt s.span)) := by
  cases walked with
  | same s' => exact h
  | replaced ss =>
    refine ⟨fun htidy => List.forall_mem_singleton.mpr ?_, h.closed⟩
    exact (Part.clean_block s.span).mpr (Part.forall_stmts.mp (h.clean htidy))

/-- An `if` that is rebuilt of its branches. The first stays closed if there is a second. -/
theorem ifElse {T : Stmt → Prop} {span : Span} {cond cond' : Expr} {thenBranch thenBranch' : Stmt} {elseBranch elseBranch' : Option Stmt}
    (h : w.Clean [.stmt (.ifElse span cond thenBranch elseBranch)]) (hcond : w.Clean [.expr cond'])
    (hthen : w.Keeps thenBranch (.same thenBranch'))
    (helse : Option.Rel (fun s s' => T s' ∧ w.Keeps s (.same s')) elseBranch elseBranch') :
    w.Keeps (.ifElse span cond thenBranch elseBranch) (.same (.ifElse span cond' thenBranch' elseBranch')) := by
  cases helse with
  | none => exact ⟨h.rebuilt rfl rfl (hcond.cons hthen.clean), fun _ => rfl⟩
  | some hother =>
    refine ⟨fun htidy => List.forall_mem_singleton.mpr (.intro ⟨fun hattached => ?_, nofun⟩ ?_), hother.2.closed⟩
    · have hclosed : thenBranch.endsOpen = false := (h htidy _ (.head _)).here.attached hattached
      exact Bool.eq_false_iff.mpr fun hopen => Bool.false_ne_true (hclosed.symm.trans (hthen.closed hopen))
    · exact hcond.cons (hthen.clean.cons hother.2.clean) htidy

end Outlook.Keeps

namespace Pass

/-! ## Numbers -/

/-- The names that have been made up are distinct and bear the numbers that have been given. -/
structure Numbered (s : PassState) : Prop where
  distinct : s.minted.Nodup
  given : ∀ x ∈ s.minted, ∃ ordinal < s.nextOrdinal, FreshNames.Mints ordinal x

/-- The next expression's names are added. -/
theorem Numbered.next {s : PassState} (h : Numbered s) {names : FreshNames} (hordinal : names.ordinal = s.nextOrdinal)
    {s' : PassState} (hminted : s'.minted = s.minted ++ names.taken) (hnext : s'.nextOrdinal = s.nextOrdinal + 1) :
    Numbered s' := by
  have htaken : ∀ x ∈ names.taken, FreshNames.Mints s.nextOrdinal x := by
    intro x hx
    obtain ⟨n, _, rfl⟩ := FreshNames.mem_taken.mp hx
    exact ⟨n, by rw [hordinal]⟩
  refine ⟨?_, fun x hx => ?_⟩
  · rw [hminted, List.nodup_append]
    refine ⟨h.distinct, names.nodup_taken, ?_⟩
    rintro x hx _ hy rfl
    obtain ⟨ordinal, hlt, n, rfl⟩ := h.given x hx
    obtain ⟨k, heq⟩ := htaken _ hy
    exact Nat.ne_of_lt hlt (FreshNames.name_inj heq).1
  · rw [hminted] at hx
    rw [hnext]
    rcases List.mem_append.mp hx with hx | hx
    · obtain ⟨ordinal, hlt, hmints⟩ := h.given x hx
      exact ⟨ordinal, Nat.lt_succ_of_lt hlt, hmints⟩
    · exact ⟨s.nextOrdinal, Nat.lt_succ_self _, htaken x hx⟩

/-- From a state to a later one, names are only added. -/
structure Adds (s s' : PassState) : Prop where
  minted : s.minted <+: s'.minted
  numbered : Numbered s → Numbered s'

theorem Adds.refl (s : PassState) : Adds s s := ⟨List.prefix_refl _, fun h => h⟩

theorem Adds.trans {s₁ s₂ s₃ : PassState} (h : Adds s₁ s₂) (h' : Adds s₂ s₃) : Adds s₁ s₃ :=
  ⟨h.minted.trans h'.minted, fun hs => h'.numbered (h.numbered hs)⟩

/-- Whatever the outcome of an attempt, the names that were taken are noted. -/
theorem Attempted.adds {ctx : PassContext} {call : Expr} {placement : Placement} {s s' : PassState}
    {attempt : Attempt} (h : Attempted ctx call placement s attempt s') : Adds s s' := by
  have hordinal (m : MatchExpr) : (m.attempt ctx.options placement s.nextOrdinal).2.ordinal = s.nextOrdinal :=
    (m.clean_code (D := False) (A := fun _ => True) ctx.options placement { ordinal := s.nextOrdinal }).1.ordinal
  cases h with
  | notAChain => exact .refl s
  | failed queue nextOrdinal minted _ _ _ _ hminted =>
    rcases hminted with ⟨rfl, rfl⟩ | ⟨m, rfl, rfl⟩
    · exact ⟨List.prefix_refl _, fun h => ⟨h.distinct, h.given⟩⟩
    · exact ⟨List.prefix_append _ _, fun h => h.next (hordinal m) rfl rfl⟩
  | generated m code minted _ _ _ hminted =>
    exact ⟨hminted ▸ List.prefix_append _ _, fun h => h.next (hordinal m) hminted rfl⟩

/-- Code is clean if the call and its place are, and the names that have been made up in the end may occur. -/
theorem Attempted.clean {ctx : PassContext} {call : Expr} {placement : Placement} {s s' : PassState}
    {code : Generated} (h : Attempted ctx call placement s (.generated code) s') {D : Prop} {A : String → Prop}
    (hnames : ∀ x ∈ s'.minted, A x) (hcall : call.Clean D A) (hplacement : placement.Clean D A) : code.Clean D A := by
  cases h with
  | generated m code minted _ hread hgenerate hminted =>
    refine (m.clean_code ctx.options placement { ordinal := s.nextOrdinal }).2 code hgenerate (fun x hx => ?_)
      (MatchNames.clean_of_read hread hcall) hplacement
    exact hnames x (hminted ▸ List.mem_append_right _ hx)

end Pass

end MatchChain
