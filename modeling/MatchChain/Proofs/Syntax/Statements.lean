import MatchChain.Proofs.Syntax.Productions
import MatchChain.Syntax.Parser

/-!
# What statements read, and the whole grammar

The productions of statements, with what comes after them: a statement that ends in an `if` without
`else` is followed by something else than an `else`. Tied together, the grammar to a depth that suffices
reads what it reads to any greater depth (`Grammar.parse_agrees`).
-/

set_option autoImplicit false

namespace MatchChain

variable {c : Cursor} {ms : List Part} {word : Keyword}

theorem FuncKind.declaration_ne_arrow : declaration ≠ arrow := by rintro ⟨⟩

namespace Parser

open Cursor (Ready Progress)
open Part (ofValue ofCatch)

/-! ## Declarations -/

section

variable {L : Locator} {d : Nat} {c c' : Cursor}

/-- What holds of a statement that was read from `c` to `c'`. -/
def Ends (L : Locator) (c : Cursor) (s : Stmt) (c' : Cursor) : Prop :=
  (c.Takes c' ∧ ∀ m ∈ [Part.stmt s], m.Fits L c c') ∧ (s.endsOpen = true → c'.kind ≠ .keyword .«else»)

theorem Ends.progress {s : Stmt} {c₀ : Cursor} (hs : Ends L c s c') (r : Progress L d 5 c₀ ms c) :
    Progress L d 5 c₀ (ms ++ [.stmt s]) c' :=
  r.extend hs.1.1 hs.1.2

/-- A statement that holds what was read, and to which no `else` can belong. -/
theorem ends_of_progress {s : Stmt} (r : Progress L d 5 c ms c')
    (hspan : s.span = c.current.span.upTo c'.previousSpan) (hchildren : Part.ofStmt s = ms)
    (hdangling : s.isDangling = false) (hopen : s.endsOpen = false) (hspelled : (Part.stmt s).Spelled) :
    Ends L c s c' := by
  refine ⟨r.finished hspan hchildren rfl hdangling hspelled, ?_⟩
  rw [hopen]
  rintro ⟨⟩

end

section

variable {L : Locator} {d : Nat} {self self' : Grammar} (h : Grammar.Agrees L d self self')

include h

theorem Reads.declarator (varKind : VarKind) :
    Reads L d 5 (declarator self varKind) (declarator self' varKind) fun x => [.declarator x] := by
  intro c hready
  refine .here ((h.binding.from hready.begin (by decide)).bind fun target c₁ r₁ => ?_)
  refine ((MayRead.default? h).from r₁).bind fun init c₂ r₂ => ?_
  refine .ite (fun _ => .spanFrom (.throw_bind (by rintro _ ⟨⟩))) fun _ => .spanFrom (.pure ?_)
  exact r₂.finished rfl rfl rfl rfl trivial

theorem Agree.varDecl (hready : c.Ready L d 0) (hk : c.kind = .keyword word)
    (varKind : VarKind) :
    Agree (varDecl self c.current.span varKind) (varDecl self' c.current.span varKind) c (Ends L c) := by
  have r := (hready.progress (by decide)).keyword hk
  refine .advance (((MayRead.collect_map (Reads.declarator h varKind).round).from r).bind fun declarators c₁ r₁ => ?_)
  refine .endStatement r₁.ready.sound fun c₂ hreaches => .spanFrom (.pure ?_)
  exact ends_of_progress (r₁.reach hreaches) rfl rfl rfl rfl trivial

/-! ## Control flow -/

theorem Reads.condition : Reads L d 0 (condition self) (condition self') fun e => [.expr e] := by
  intro c hready
  refine .expect fun hk => ?_
  have r := (hready.progress (by decide)).punct hk
  exact (h.expr.from r (by decide)).bind fun cond c₁ r₁ => .expect fun hk₁ => .pure (r₁.punct hk₁).result

/-- If there is an `else`, it is the next token; if not, what comes next is none. -/
theorem Agree.elseBranch? {c₀ c : Cursor} (r : Progress L d 5 c₀ ms c) :
    Agree (elseBranch? self) (elseBranch? self') c fun branch c' =>
      Progress L d 5 c₀ (ms ++ branch.toList.map Part.stmt) c' ∧
        (branch.isSome = true → c.kind = .keyword .«else») ∧
        (endsOpenElse branch = true → c'.kind ≠ .keyword .«else») := by
  refine .eat (fun hk => ?_) fun hk => .pure ?_
  · have r₁ := r.keyword hk
    refine (h .stmt r₁.ready).bind fun s c₂ hs => .pure ⟨?_, fun _ => hk, hs.2⟩
    exact Ends.progress hs r₁
  · refine ⟨?_, by rintro ⟨⟩, fun _ => hk⟩
    rw [Option.toList_none, List.map_nil, List.append_nil]
    exact r

theorem Agree.ifElse (hready : c.Ready L d 0) (hk : c.kind = .keyword word) :
    Agree (ifElse self c.current.span) (ifElse self' c.current.span) c (Ends L c) := by
  have r := (hready.progress (by decide)).keyword hk
  refine .advance (((Reads.condition h).from r (by decide)).bind fun cond c₁ r₁ => ?_)
  refine (h .stmt r₁.ready).bind fun thenBranch c₂ hthen => ?_
  refine (Agree.elseBranch? h (Ends.progress hthen r₁)).bind fun elseBranch c₃ helse => .spanFrom (.pure ?_)
  obtain ⟨r₃, hsome, hopen⟩ := helse
  have hdangling :
      (Part.stmt (.ifElse (c.current.span.upTo c₃.previousSpan) cond thenBranch elseBranch)).isDangling = false := by
    cases elseBranch with
    | none => rfl
    | some s => exact Bool.eq_false_iff.mpr fun hthenOpen => hthen.2 hthenOpen (hsome rfl)
  exact ⟨r₃.finished rfl rfl rfl hdangling trivial, hopen⟩

omit h in
theorem Agree.jumpLabel {c₀ c : Cursor} (r : Progress L d 5 c₀ ms c) :
    Agree jumpLabel jumpLabel c fun label c' => Progress L d 5 c₀ ms c' ∧ ∀ x ∈ label, IsName x := by
  have hnone : Progress L d 5 c₀ ms c ∧ ∀ x ∈ (none : Option String), IsName x := ⟨r, by rintro _ ⟨⟩⟩
  refine .current ?_
  split
  next hk =>
    refine .ite (fun _ => .pure hnone) fun _ => .advance (.pure ⟨r.advance (ne_eof hk (TokenKind.ident_ne_eof _)), ?_⟩)
    rintro _ ⟨⟩
    exact r.ready.sound.isName hk
  next => exact .pure hnone

omit h in
theorem Agree.jump (hready : c.Ready L d 0) (hk : c.kind = .keyword word) :
    Agree jump jump c fun label c' => Progress L d 5 c [] c' ∧ ∀ x ∈ label, IsName x := by
  have r := (hready.progress (by decide)).keyword hk
  refine .advance ((Agree.jumpLabel r).bind fun label c₁ hr₁ => ?_)
  exact .endStatement hr₁.1.ready.sound fun c₂ hreaches => .pure ⟨hr₁.1.reach hreaches, hr₁.2⟩

theorem MayRead.catchParam :
    MayRead L d (catchParam self) (catchParam self') fun param => param.toList.map Part.binding := by
  intro c hready
  refine .eat (fun hk => ?_) fun _ => .pure ⟨.refl hready.sound, List.forall_mem_nil _⟩
  have r := hready.begin.punct hk
  refine (h.binding.from r (by decide)).bind fun target c₁ r₁ => .expect fun hk₁ => .pure ?_
  exact ⟨(r₁.punct hk₁).takes.reaches, (r₁.punct hk₁).fits⟩

theorem Agree.catchClause {c₀ c : Cursor} (r : Progress L d 5 c₀ ms c) :
    Agree (catchClause self) (catchClause self') c fun clause c' => Progress L d 5 c₀ (ms ++ ofCatch clause) c' := by
  refine ((MayRead.catchParam h).from r).bind fun param c₁ r₁ => ?_
  refine ((Reads.block h).from r₁ (by decide)).bind fun body c₂ r₂ => .pure ?_
  rw [List.append_assoc] at r₂
  exact r₂

theorem Agree.handler? {c₀ c : Cursor} (r : Progress L d 5 c₀ ms c) :
    Agree (handler? self) (handler? self') c fun handler c' =>
      Progress L d 5 c₀ (ms ++ handler.toList.flatMap ofCatch) c' := by
  refine .eat (fun hk => ?_) fun _ => .pure ?_
  · refine (Agree.catchClause h (r.keyword hk)).bind fun clause c₁ r₁ => .pure ?_
    rw [Option.toList_some, List.flatMap_singleton]
    exact r₁
  · rw [Option.toList_none, List.flatMap_nil, List.append_nil]
    exact r

theorem Agree.finalizer? {c₀ c : Cursor} (r : Progress L d 5 c₀ ms c) :
    Agree (finalizer? self) (finalizer? self') c fun finalizer c' =>
      Progress L d 5 c₀ (ms ++ (finalizer.getD []).map Part.stmt) c' := by
  refine .eat (fun hk => ?_) fun _ => .pure ?_
  · exact ((Reads.block h).from (r.keyword hk) (by decide)).bind fun body c₁ r₁ => .pure r₁
  · rw [Option.getD_none, List.map_nil, List.append_nil]
    exact r

theorem Agree.tryCatch (hready : c.Ready L d 0) (hk : c.kind = .keyword word) :
    Agree (tryCatch self c.current.span) (tryCatch self' c.current.span) c (Ends L c) := by
  have r := (hready.progress (by decide)).keyword hk
  refine .advance (((Reads.block h).from r (by decide)).bind fun body c₁ r₁ => ?_)
  refine (Agree.handler? h r₁).bind fun handler c₂ r₂ => (Agree.finalizer? h r₂).bind fun finalizer c₃ r₃ => ?_
  refine .ite (fun _ => .spanFrom (.throw_bind (by rintro _ ⟨⟩))) fun _ => .spanFrom (.pure ?_)
  exact ends_of_progress r₃ rfl rfl rfl rfl trivial

theorem MayRead.returnValue : MayRead L d (returnValue self) (returnValue self') ofValue := by
  intro c hready
  have hnone : c.Reaches c ∧ ∀ m ∈ ofValue none, m.Fits L c c := ⟨.refl hready.sound, List.forall_mem_nil _⟩
  refine .current ?_
  split
  next => exact .pure hnone
  next => exact .pure hnone
  next => exact .pure hnone
  next =>
    refine .ite (fun _ => .pure hnone) fun _ => (h.expr (hready.mono (by decide))).bind fun value c₁ hvalue => .pure ?_
    exact ⟨hvalue.1.reaches, hvalue.2⟩

theorem Agree.ret (hready : c.Ready L d 0) (hk : c.kind = .keyword word) :
    Agree (ret self c.current.span) (ret self' c.current.span) c (Ends L c) := by
  have r := (hready.progress (by decide)).keyword hk
  refine .advance (((MayRead.returnValue h).from r).bind fun value c₁ r₁ => ?_)
  refine .endStatement r₁.ready.sound fun c₂ hreaches => .spanFrom (.pure ?_)
  exact ends_of_progress (r₁.reach hreaches) rfl rfl rfl rfl trivial

theorem Agree.throwing (hready : c.Ready L d 0) (hk : c.kind = .keyword word) :
    Agree (throwing self c.current.span) (throwing self' c.current.span) c (Ends L c) := by
  have r := (hready.progress (by decide)).keyword hk
  refine .advance (.current (.ite (fun _ => .throw_bind (by rintro _ ⟨⟩)) fun _ => ?_))
  refine (h.expr.from r (by decide)).bind fun value c₁ r₁ => ?_
  refine .endStatement r₁.ready.sound fun c₂ hreaches => .spanFrom (.pure ?_)
  exact ends_of_progress (r₁.reach hreaches) rfl rfl rfl rfl trivial

theorem Agree.exprStmt (hready : c.Ready L d 4) :
    Agree (exprStmt self c.current.span) (exprStmt self' c.current.span) c (Ends L c) := by
  refine (h.expr.from (hready.progress (by decide)) (by decide)).bind fun value c₁ r₁ => ?_
  refine .endStatement r₁.ready.sound fun c₂ hreaches => .spanFrom (.pure ?_)
  exact ends_of_progress (r₁.reach hreaches) rfl rfl rfl rfl trivial

theorem Agree.nameStmt {name : String} (hready : c.Ready L d 4) (hk : c.kind = .ident name) :
    Agree (nameStmt self c.current.span name) (nameStmt self' c.current.span name) c (Ends L c) := by
  have hne := ne_eof hk (TokenKind.ident_ne_eof _)
  have r := (hready.progress (by decide)).advance hne
  refine .get (.ite (fun _ => .advance ?_) fun _ => .ite (fun hcolon => ?_) fun _ => Agree.exprStmt h hready)
  · refine (Agree.function h r FuncKind.declaration_ne_arrow true).bind fun fn c₁ r₁ => .spanFrom (.pure ?_)
    exact ends_of_progress r₁ rfl rfl rfl rfl trivial
  · have hcolon : c.advance.kind = .punct .colon := by
      rw [Cursor.advance_of_ne_eof hne]
      exact beq_iff_eq.mp hcolon
    have r₂ := r.punct hcolon
    refine .advance (.advance ((h .stmt r₂.ready).bind fun body c₃ hbody => .spanFrom (.pure ?_)))
    exact ⟨(Ends.progress hbody r₂).finished rfl rfl rfl rfl (hready.sound.isName hk), hbody.2⟩

end

/-! ## Imports -/

section

variable {L : Locator} {d : Nat}

theorem Agree.localName {c₀ c : Cursor} (imported : String) (r : Progress L d 5 c₀ ms c) :
    Agree (localName imported) (localName imported) c fun _ c' => Progress L d 5 c₀ ms c' := by
  refine .atWord (.ite (fun hword => .advance (.name fun name hk => .pure ?_)) fun _ => .pure r)
  have r₁ := r.advance (ne_eof (beq_iff_eq.mp hword) (TokenKind.ident_ne_eof _))
  exact r₁.advance (ne_eof hk (TokenKind.ident_ne_eof _))

theorem Agree.importedName (hready : c.Ready L d 0) :
    Agree importedName importedName c fun _ c' => Progress L d 5 c [] c' := by
  have r := hready.progress (by decide)
  refine .kind ?_
  split
  next hk => exact .advance (.pure (r.advance (ne_eof hk (TokenKind.str_ne_eof _))))
  next => exact .propertyName hready.sound fun name _ hk => r.advance hk

theorem Reads.namedSpecifier : Reads L d 5 namedSpecifier namedSpecifier fun s => [.specifier s] := by
  intro c hready
  refine .here ((Agree.importedName (hready.mono (by decide))).bind fun imported c₁ r₁ => ?_)
  refine (Agree.localName imported r₁).bind fun bound c₂ r₂ => .spanFrom (.pure ?_)
  exact r₂.finished rfl rfl rfl rfl trivial

theorem Reads.importList : Reads L d 0 importList importList (List.map Part.specifier) := by
  intro c hready
  have r := hready.progress (by decide)
  refine .current ?_
  split
  next hk =>
    refine .advance (.expectWord fun hk₁ => .name fun name hk₂ => .spanFrom (.pure ?_))
    have r₂ := ((r.punct hk).advance hk₁).advance (ne_eof hk₂ (TokenKind.ident_ne_eof _))
    exact r₂.finished rfl rfl rfl rfl trivial
  next hk =>
    refine .advance (.imp ((Reads.namedSpecifier.commaList_map (TokenKind.punct_ne_eof _)).from (r.punct hk)
      (by decide)) ?_)
    exact fun _ _ r₁ => r₁.result
  next => exact .throw (by rintro _ ⟨⟩)

theorem Reads.importSpecifiers : Reads L d 0 importSpecifiers importSpecifiers (List.map Part.specifier) := by
  intro c hready
  refine .current ?_
  split
  next name hk =>
    have hne := ne_eof hk (TokenKind.ident_ne_eof _)
    have hfirst : (Part.specifier ⟨.default, "default", name, c.current.span⟩).Fits L c c.advance :=
      hready.sound.token hne rfl rfl rfl rfl trivial
    have r := (hready.progress (by decide)).one hne hfirst
    refine .advance (.eat (fun hk₁ => ?_) fun _ => .pure r.result)
    exact (Reads.importList.from (r.punct hk₁) (by decide)).bind fun rest c₁ r₁ => .pure r₁.result
  next => exact Reads.importList hready

theorem Agree.importDecl (hready : c.Ready L d 0) (hk : c.kind = .keyword word) :
    Agree (importDecl c.current.span) (importDecl c.current.span) c (Ends L c) := by
  have r := (hready.progress (by decide)).keyword hk
  refine .advance (.kind ?_)
  split
  next hk₁ =>
    have r₁ := r.advance (ne_eof hk₁ (TokenKind.str_ne_eof _))
    refine .advance (.endStatement r₁.ready.sound fun c₂ hreaches => .spanFrom (.pure ?_))
    exact ends_of_progress (r₁.reach hreaches) rfl rfl rfl rfl trivial
  next =>
    refine (Reads.importSpecifiers.from r (by decide)).bind fun specifiers c₁ r₁ => .expectWord fun hk₁ => .kind ?_
    have r₂ := r₁.advance hk₁
    split
    next hk₂ =>
      have r₃ := r₂.advance (ne_eof hk₂ (TokenKind.str_ne_eof _))
      refine .advance (.endStatement r₃.ready.sound fun c₄ hreaches => .spanFrom (.pure ?_))
      exact ends_of_progress (r₃.reach hreaches) rfl rfl rfl rfl trivial
    next => exact .failExpected

end

/-! ## All statements -/

theorem Agree.stmt {L : Locator} {d : Nat} {self self' : Grammar} (h : Grammar.Agrees L d self self')
    (hready : c.Ready L d 4) : Agree (stmt self) (stmt self') c (Ends L c) := by
  have hready₀ : c.Ready L d 0 := hready.mono (by decide)
  have r := hready₀.progress (by decide)
  refine .current ?_
  dsimp only
  split
  next hk => exact Agree.varDecl h hready₀ hk _
  next hk => exact Agree.varDecl h hready₀ hk _
  next hk => exact Agree.varDecl h hready₀ hk _
  next =>
    refine (Agree.function h r FuncKind.declaration_ne_arrow false).bind fun fn c₁ r₁ => .spanFrom (.pure ?_)
    exact ends_of_progress r₁ rfl rfl rfl rfl trivial
  next hk => exact Agree.nameStmt h hready hk
  next hk => exact Agree.ret h hready₀ hk
  next hk => exact Agree.ifElse h hready₀ hk
  next =>
    refine ((Reads.block h).from r (Nat.le_refl _)).bind fun body c₁ r₁ => .spanFrom (.pure ?_)
    exact ends_of_progress r₁ rfl rfl rfl rfl trivial
  next hk =>
    exact (Agree.jump hready₀ hk).bind fun _ _ hr => .spanFrom (.pure (ends_of_progress hr.1 rfl rfl rfl rfl hr.2))
  next hk =>
    exact (Agree.jump hready₀ hk).bind fun _ _ hr => .spanFrom (.pure (ends_of_progress hr.1 rfl rfl rfl rfl hr.2))
  next hk => exact Agree.throwing h hready₀ hk
  next hk => exact Agree.tryCatch h hready₀ hk
  next hk =>
    refine .advance (((Reads.condition h).from (r.keyword hk) (by decide)).bind fun cond c₁ r₁ => ?_)
    refine (h .stmt r₁.ready).bind fun body c₂ hbody => .spanFrom (.pure ?_)
    exact ⟨(Ends.progress hbody r₁).finished rfl rfl rfl rfl trivial, hbody.2⟩
  next hk => exact .get (.ite (fun _ => Agree.exprStmt h hready) fun _ => Agree.importDecl hready₀ hk)
  next hk => exact .advance (.spanFrom (.pure (ends_of_progress (r.punct hk) rfl rfl rfl rfl trivial)))
  next => exact Agree.exprStmt h hready

end Parser

/-! ## The grammar -/

namespace Grammar

open Parser

variable {L : Locator} {d d' : Nat} {self self' : Grammar}

theorem Agrees.production (h : Agrees L d self self') : Agrees L (d + 1) (production self) (production self') := by
  have hready {c : Cursor} {k : Nat} (hc : c.Ready L (d + 1) (k + 1)) : c.Ready L d k := by
    have hdepth := hc.depth
    exact ⟨hc.sound, by omega⟩
  intro s c hc
  cases s with
  | expr => exact (Reads.expr h (hready hc)).imp fun _ _ hr => ⟨hr, trivial⟩
  | binary tightness => exact (Reads.binary h tightness (hready hc)).imp fun _ _ hr => ⟨hr, trivial⟩
  | unary => exact (Reads.unary h (hready hc)).imp fun _ _ hr => ⟨hr, trivial⟩
  | construct => exact (Reads.construct h (hready hc)).imp fun _ _ hr => ⟨hr, trivial⟩
  | stmt => exact Agree.stmt h (hready hc)
  | binding => exact (Reads.binding h (hready hc)).imp fun _ _ hr => ⟨hr, trivial⟩

/-- A depth that suffices reads the same as any greater one. -/
theorem parse_agrees (hd : d ≤ d') : Agrees L d (parse d) (parse d') := by
  induction d generalizing d' with
  | zero =>
    intro s c hc
    have hdepth := hc.depth
    have hrank : 0 < rank s := by cases s <;> exact Nat.zero_lt_succ _
    omega
  | succ d ih =>
    obtain ⟨d', rfl⟩ : ∃ n, d' = n + 1 := ⟨d' - 1, by omega⟩
    exact (ih (Nat.le_of_succ_le_succ hd)).production

end Grammar

end MatchChain
