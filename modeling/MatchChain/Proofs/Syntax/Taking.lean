import Mathlib.Data.List.Forall2
import MatchChain.Proofs.Syntax.Formula
import MatchChain.Proofs.Token.Ahead

/-!
# Parsers that succeed

`Takes p c rest Q`: at `c` the parser `p` succeeds with a result that satisfies `Q` and leaves the tokens
`rest`. The lemmas below run the small parsers and the two list combinators on known tokens. A chain of
links is followed from the left: `Spine` says that a head and some of its links have been read and that
the loop goes on from there.
-/

set_option autoImplicit false

namespace MatchChain.Parser

variable {kss : List (List TokenKind)} {ks : List TokenKind} {c : Cursor}

/-- The parser succeeds at a cursor, with a result and a cursor after it that satisfy `Q`. -/
def Returns {α : Type} (p : Parser α) (c : Cursor) (Q : α → Cursor → Prop) : Prop :=
  ∃ a c', p c = .ok (a, c') ∧ Q a c'

/-- The parser succeeds at a cursor, with such a result, and leaves these tokens. -/
def Takes {α : Type} (p : Parser α) (c : Cursor) (rest : List TokenKind) (Q : α → Prop) : Prop :=
  Returns p c fun a c' => Q a ∧ c'.Ahead rest

section

variable {α β : Type} {p : Parser α} {f : α → Parser β} {c : Cursor} {k : TokenKind}

theorem bind_ok {a : α} {c' : Cursor} (h : p c = .ok (a, c')) : (p >>= f) c = f a c' := by
  show (p c >>= fun x => f x.1 x.2) = f a c'
  rw [h]
  rfl

theorem expect_ok (hc : c.kind = k) : expect k c = .ok (c.current.span, c.advance) := by
  show (if c.kind == k then (do modify Cursor.advance; return c.current.span)
    else throw (.expectedToken k c.kind c.current.span) : Parser Span) c = _
  rw [hc, if_pos (beq_self_eq_true k)]
  rfl

namespace Returns

variable {Q : α → Cursor → Prop} {R : β → Cursor → Prop}

theorem bind (h : Returns p c Q) (hf : ∀ a c', Q a c' → Returns (f a) c' R) : Returns (p >>= f) c R := by
  obtain ⟨a, c', hp, ha⟩ := h
  obtain ⟨b, c'', hb, hR⟩ := hf a c' ha
  exact ⟨b, c'', (bind_ok hp).trans hb, hR⟩

theorem pure {a : α} (ha : Q a c) : Returns (Pure.pure a) c Q := ⟨a, c, rfl, ha⟩

theorem imp {Q' : α → Cursor → Prop} (h : Returns p c Q) (hQ : ∀ a c', Q a c' → Q' a c') : Returns p c Q' := by
  obtain ⟨a, c', hp, ha⟩ := h
  exact ⟨a, c', hp, hQ a c' ha⟩

/-! What the small parsers hand on. -/

theorem get {f : Cursor → Parser β} (h : Returns (f c) c R) : Returns (MonadState.get >>= f) c R := h

theorem current {f : Token → Parser β} (h : Returns (f c.current) c R) : Returns (Parser.current >>= f) c R := h

theorem kind {f : TokenKind → Parser β} (h : Returns (f c.kind) c R) : Returns (Parser.kind >>= f) c R := h

theorem here {f : Span → Parser β} (h : Returns (f c.current.span) c R) : Returns (Parser.here >>= f) c R := h

theorem spanFrom {f : Span → Parser β} {start : Span} (h : Returns (f (start.upTo c.previousSpan)) c R) :
    Returns (Parser.spanFrom start >>= f) c R := h

theorem check {f : Bool → Parser β} (h : Returns (f (c.kind == k)) c R) : Returns (Parser.check k >>= f) c R := h

theorem advance {f : PUnit → Parser β} (h : Returns (f ⟨⟩) c.advance R) :
    Returns (modify Cursor.advance >>= f) c R := h

theorem eat {f : Bool → Parser β} (hc : c.kind = k) (h : Returns (f true) c.advance R) :
    Returns (Parser.eat k >>= f) c R := by
  have heat : Parser.eat k c = .ok (true, c.advance) := by
    show (if c.kind == k then (do modify Cursor.advance; return true) else return false : Parser Bool) c = _
    rw [hc, if_pos (beq_self_eq_true k)]
    rfl
  rwa [Returns, bind_ok heat]

theorem not_eat {f : Bool → Parser β} (hc : c.kind ≠ k) (h : Returns (f false) c R) :
    Returns (Parser.eat k >>= f) c R := by
  have heat : Parser.eat k c = .ok (false, c) := by
    show (if c.kind == k then (do modify Cursor.advance; return true) else return false : Parser Bool) c = _
    rw [if_neg (by simpa using hc)]
    rfl
  rwa [Returns, bind_ok heat]

theorem expect {f : Span → Parser β} (hc : c.kind = k) (h : Returns (f c.current.span) c.advance R) :
    Returns (Parser.expect k >>= f) c R := by
  rwa [Returns, bind_ok (expect_ok hc)]

end Returns

namespace Takes

variable {rest mid : List TokenKind} {Q : α → Prop} {R : β → Prop}

theorem bind (h : Takes p c mid Q) (hf : ∀ a c', Q a → c'.Ahead mid → Takes (f a) c' rest R) :
    Takes (p >>= f) c rest R :=
  Returns.bind h fun a c' ha => hf a c' ha.1 ha.2

theorem pure {a : α} (hc : c.Ahead rest) (ha : Q a) : Takes (Pure.pure a) c rest Q :=
  Returns.pure ⟨ha, hc⟩

theorem imp {Q' : α → Prop} (h : Takes p c rest Q) (hQ : ∀ a, Q a → Q' a) : Takes p c rest Q' :=
  Returns.imp h fun a _ ha => ⟨hQ a ha.1, ha.2⟩

theorem get {f : Cursor → Parser β} (h : Takes (f c) c rest R) : Takes (MonadState.get >>= f) c rest R := h

theorem current {f : Token → Parser β} (h : Takes (f c.current) c rest R) :
    Takes (Parser.current >>= f) c rest R := h

theorem kind {f : TokenKind → Parser β} (h : Takes (f c.kind) c rest R) :
    Takes (Parser.kind >>= f) c rest R := h

theorem here {f : Span → Parser β} (h : Takes (f c.current.span) c rest R) :
    Takes (Parser.here >>= f) c rest R := h

theorem spanFrom {f : Span → Parser β} {start : Span}
    (h : Takes (f (start.upTo c.previousSpan)) c rest R) : Takes (Parser.spanFrom start >>= f) c rest R := h

theorem check {f : Bool → Parser β} (h : Takes (f (c.kind == k)) c rest R) :
    Takes (Parser.check k >>= f) c rest R := h

theorem advance {f : PUnit → Parser β} (h : Takes (f ⟨⟩) c.advance rest R) :
    Takes (modify Cursor.advance >>= f) c rest R := h

theorem eat {f : Bool → Parser β} (hc : c.kind = k) (h : Takes (f true) c.advance rest R) :
    Takes (Parser.eat k >>= f) c rest R := Returns.eat hc h

theorem not_eat {f : Bool → Parser β} (hc : c.kind ≠ k) (h : Takes (f false) c rest R) :
    Takes (Parser.eat k >>= f) c rest R := Returns.not_eat hc h

theorem expect {f : Span → Parser β} (hc : c.kind = k) (h : Takes (f c.current.span) c.advance rest R) :
    Takes (Parser.expect k >>= f) c rest R := Returns.expect hc h

end Takes

end

/-! ## Lists -/

section

variable {α γ : Type} {item : Parser α} {like : α → γ → Prop} {close : Punct} {c : Cursor}
  {rest : List TokenKind}

/-- The parser of list items reads these tokens before the given one. -/
def ReadsItem (item : Parser α) (like : α → γ → Prop) (close next : Punct) (ks : List TokenKind)
    (x : γ) : Prop :=
  ∀ c rest, c.Ahead (ks ++ .punct next :: rest) →
    c.kind ≠ .punct close ∧ Takes item c (.punct next :: rest) (like · x)

/-- Each item is read before a comma, and the last one before the end of the list. -/
inductive ReadsItems (item : Parser α) (like : α → γ → Prop) (close : Punct) :
    List (List TokenKind) → List γ → Prop
  | nil : ReadsItems item like close [] []
  | last {ks x} : ReadsItem item like close close ks x → ReadsItems item like close [ks] [x]
  | more {ks ks' kss x xs} : ReadsItem item like close .comma ks x →
      ReadsItems item like close (ks' :: kss) xs → ReadsItems item like close (ks :: ks' :: kss) (x :: xs)

theorem ReadsItems.of_forall₂ {xs : List γ}
    (h : List.Forall₂ (fun ks x => ∀ next, next = .comma ∨ next = close →
      ReadsItem item like close next ks x) kss xs) : ReadsItems item like close kss xs := by
  induction h with
  | nil => exact .nil
  | cons hx hxs ih =>
    cases hxs with
    | nil => exact .last (hx _ (.inr rfl))
    | cons => exact .more (hx _ (.inl rfl)) ih

theorem takes_itemOf_last {Q : α → Prop} (hclose : close ≠ .comma)
    (h : Takes item c (.punct close :: rest) Q) :
    Takes (itemOf item) c (.punct close :: rest) fun r => Q r.1 ∧ r.2 = false := by
  refine h.bind fun a c' ha hc' => .not_eat ?_ (.pure hc' ⟨ha, rfl⟩)
  rw [hc'.kind_cons]
  simpa using hclose

theorem takes_itemOf_more {Q : α → Prop} (h : Takes item c (.punct .comma :: rest) Q) :
    Takes (itemOf item) c rest fun r => Q r.1 ∧ r.2 = true :=
  h.bind fun _ _ ha hc' => .eat hc'.kind_cons (.pure (hc'.advance (by simp)) ⟨ha, rfl⟩)

theorem takes_collectFor (hclose : close ≠ .comma) {xs : List γ}
    (h : ReadsItems item like close kss xs) {n : Nat} (hn : kss.length < n) (found : List α)
    (hc : c.Ahead (Tokens.separated kss ++ .punct close :: rest)) :
    Takes (collectFor (·.check (.punct close)) (itemOf item) n found) c (.punct close :: rest)
      fun as => ∃ ys, as = found.reverse ++ ys ∧ List.Forall₂ like ys xs := by
  obtain ⟨n, rfl⟩ := Nat.exists_eq_succ_of_ne_zero (Nat.ne_of_gt (Nat.zero_lt_of_lt hn))
  induction h generalizing n found c with
  | nil =>
    rw [collectFor]
    refine .get ?_
    rw [if_pos (by simp [Cursor.check, hc.kind_current, Tokens.separated])]
    exact .pure hc ⟨[], by simp, .nil⟩
  | last hx =>
    rw [Tokens.separated, List.flatMap_nil, List.append_nil] at hc
    obtain ⟨hkind, hitem⟩ := hx c _ hc
    rw [collectFor]
    refine .get ?_
    rw [if_neg (by simpa [Cursor.check] using hkind)]
    refine (takes_itemOf_last hclose hitem).bind ?_
    rintro ⟨a, more⟩ c' ⟨ha, rfl⟩ hc'
    exact .pure hc' ⟨[a], by simp, .cons ha .nil⟩
  | @more ks ks' kss x xs hx _ ih =>
    rw [Tokens.separated, List.flatMap_cons, List.cons_append, List.append_assoc, List.cons_append] at hc
    obtain ⟨hkind, hitem⟩ := hx c _ hc
    rw [collectFor]
    refine .get ?_
    rw [if_neg (by simpa [Cursor.check] using hkind)]
    refine (takes_itemOf_more hitem).bind ?_
    rintro ⟨a, more⟩ c' ⟨ha, rfl⟩ hc'
    obtain ⟨n, rfl⟩ := Nat.exists_eq_succ_of_ne_zero
      (Nat.ne_of_gt (Nat.zero_lt_of_lt (Nat.lt_of_succ_lt_succ hn)))
    refine (ih (a :: found) hc' n (Nat.lt_of_succ_lt_succ hn)).imp ?_
    rintro _ ⟨zs, rfl, hzs⟩
    exact ⟨a :: zs, by simp, .cons ha hzs⟩

theorem length_le_length_separated (kss : List (List TokenKind)) :
    kss.length ≤ (Tokens.separated kss).length + 1 := by
  cases kss with
  | nil => exact Nat.zero_le _
  | cons ks kss =>
    have hmore : kss.length ≤ (kss.flatMap (TokenKind.punct .comma :: ·)).length := by
      induction kss with
      | nil => exact Nat.le_refl 0
      | cons ks kss ih =>
        simp only [List.flatMap_cons, List.length_append, List.length_cons]
        omega
    simp only [Tokens.separated, List.length_append, List.length_cons]
    omega

theorem takes_commaList (hclose : close ≠ .comma) {xs : List γ}
    (h : ReadsItems item like close kss xs)
    (hc : c.Ahead (Tokens.separated kss ++ .punct close :: rest)) :
    Takes (commaList (.punct close) item) c rest fun as => List.Forall₂ like as xs := by
  have hn : kss.length < c.remaining + 1 := by
    have hlength := length_le_length_separated kss
    rw [hc.remaining, List.length_append, List.length_cons]
    omega
  have hitems : Takes (collect (·.check (.punct close)) (itemOf item)) c (.punct close :: rest)
      fun as => List.Forall₂ like as xs := by
    refine .get ((takes_collectFor hclose h hn [] hc).imp ?_)
    rintro _ ⟨ys, rfl, hys⟩
    exact hys
  refine hitems.bind fun as c' has hc' => ?_
  exact .expect hc'.kind_cons (.pure (hc'.advance (by simp)) has)

end

/-! ## Chains of links -/

section

variable {α : Type} {head : Parser α} {link : α → Parser (Option α)} {like like' : α → Prop}
  {ks ls rest : List TokenKind}

/-- The head and the first links of a chain are read off these tokens, and the loop goes on with what
    they make up. Of the rounds that the loop was given, it has used at most as many as there were
    tokens after the head. -/
def Spine (head : Parser α) (link : α → Parser (Option α)) (ks rest : List TokenKind)
    (like : α → Prop) : Prop :=
  ∀ c : Cursor, c.Ahead (ks ++ rest) → ∃ x c₁ more y c₂, head c = .ok (x, c₁) ∧ c₁.Ahead (more ++ rest) ∧
    like y ∧ c₂.Ahead rest ∧ ∀ n, more.length < n →
      ∃ m, n ≤ m + more.length ∧ chainFor link n x c₁ = chainFor link m y c₂

namespace Spine

theorem start (h : ∀ c : Cursor, c.Ahead (ks ++ rest) → Takes head c rest like) :
    Spine head link ks rest like := by
  intro c hc
  obtain ⟨x, c₁, hx, hlike, hc₁⟩ := h c hc
  exact ⟨x, c₁, [], x, c₁, hx, hc₁, hlike, hc₁, fun n _ => ⟨n, Nat.le_refl _, rfl⟩⟩

theorem extend (h : Spine head link ks (ls ++ rest) like) (hne : ls ≠ [])
    (hlink : ∀ (y : α) (c : Cursor), like y → c.Ahead (ls ++ rest) →
      Takes (link y) c rest fun r => ∃ z, r = some z ∧ like' z) :
    Spine head link (ks ++ ls) rest like' := by
  intro c hc
  rw [List.append_assoc] at hc
  obtain ⟨x, c₁, more, y, c₂, hx, hc₁, hy, hc₂, hrun⟩ := h c hc
  obtain ⟨_, c₃, hz, ⟨z, rfl, hlike⟩, hc₃⟩ := hlink y c₂ hy hc₂
  refine ⟨x, c₁, more ++ ls, z, c₃, hx, by rwa [List.append_assoc], hlike, hc₃, fun n hn => ?_⟩
  rw [List.length_append] at hn ⊢
  obtain ⟨m, hm, hchain⟩ := hrun n (by omega)
  have hpos : 0 < ls.length := List.length_pos_iff.mpr hne
  obtain ⟨m, rfl⟩ := Nat.exists_eq_succ_of_ne_zero (by omega : m ≠ 0)
  refine ⟨m, by omega, ?_⟩
  rw [hchain, chainFor, bind_ok hz]

/-- At the end of a chain its value is handed on. -/
theorem finish (h : Spine head link ks rest like)
    (hlink : ∀ (y : α) (c : Cursor), c.Ahead rest → link y c = .ok (none, c))
    (hc : c.Ahead (ks ++ rest)) : Takes (head >>= chain link) c rest like := by
  obtain ⟨x, c₁, more, y, c₂, hx, hc₁, hy, hc₂, hrun⟩ := h c hc
  obtain ⟨m, hm, hchain⟩ := hrun (c₁.remaining + 1) (by
    rw [hc₁.remaining, List.length_append]
    omega)
  have hremaining := hc₁.remaining
  rw [List.length_append] at hremaining
  obtain ⟨m, rfl⟩ := Nat.exists_eq_succ_of_ne_zero (by omega : m ≠ 0)
  refine ⟨y, c₂, ?_, hy, hc₂⟩
  rw [bind_ok hx]
  show chainFor link (c₁.remaining + 1) x c₁ = _
  rw [hchain, chainFor, bind_ok (hlink y c₂ hc₂)]
  rfl

end Spine

end

/-! ## Looking for an arrow -/

/-- Whether a parameter list can start with this token. -/
def opensParams : TokenKind → Bool
  | .ident _ | .punct .lparen => true
  | _ => false

/-- What comes after a name or after parentheses. -/
def afterParams : List TokenKind → Option (List TokenKind)
  | .ident _ :: rest => some rest
  | .punct .lparen :: rest => TokenKind.afterClose 0 (.punct .lparen :: rest)
  | _ => none

def startsAsync (ks : List TokenKind) : Bool :=
  ks.headD .eof == .ident "async" && opensParams (ks.getD 1 .eof)

/-- What `arrowAhead` finds, as a function of the tokens ahead. -/
def arrowIn (ks : List TokenKind) : Option Bool :=
  (afterParams (if startsAsync ks then ks.tail else ks)).bind fun rest =>
    if rest.headD .eof == .punct .arrow then some (startsAsync ks) else none

/-- The place where `arrowAhead` looks for the arrow. -/
def arrowAt? (c : Cursor) (i : Nat) : Option Nat :=
  match (c.tokenAt i).kind with
  | .ident _ => some (i + 1)
  | .punct .lparen => (c.matchingClose i).map (· + 1)
  | _ => none

theorem arrowAt?_rel {i : Nat} (h : Cursor.Ahead { c with pos := i } ks) :
    Option.Rel (fun j rest => Cursor.Ahead { c with pos := j } rest) (arrowAt? c i) (afterParams ks) := by
  have hkind : (c.tokenAt i).kind = ks.headD .eof := h.kind_current
  unfold arrowAt? afterParams
  rw [hkind]
  match ks with
  | [] => exact .none
  | .ident _ :: rest => exact .some h.step
  | .punct p :: rest =>
    by_cases hp : p = .lparen
    · subst hp
      have hclose := Cursor.Ahead.closeFrom (c := c) h 0
      have hsize : c.tokens.size - i = (TokenKind.punct .lparen :: rest).length + 1 := h.remaining
      rw [← hsize] at hclose
      show Option.Rel _ ((c.closeFrom (c.tokens.size - i) 0 i).map (· + 1))
        (TokenKind.afterClose 0 (.punct .lparen :: rest))
      generalize c.closeFrom (c.tokens.size - i) 0 i = found at hclose ⊢
      generalize TokenKind.afterClose 0 (.punct .lparen :: rest) = after at hclose ⊢
      cases hclose with
      | none => exact .none
      | some hrest => exact .some hrest
    · cases p <;> first | exact absurd rfl hp | exact .none
  | .eof :: _ | .str _ :: _ | .num _ :: _ | .bigint _ :: _ | .template _ :: _ | .keyword _ :: _ =>
    exact .none

theorem startsAsync_eq (hc : c.Ahead ks) :
    (c.kind == .ident "async" && !(c.peek 1).newlineBefore && opensParams (c.peek 1).kind)
      = startsAsync ks := by
  have hsecond : (c.peek 1).kind = ks.getD 1 .eof := hc.kind_tokenAt 1
  rw [startsAsync, hc.kind_current, hsecond]
  cases hopens : opensParams (ks.getD 1 .eof) with
  | false => simp
  | true =>
    have hline : (c.peek 1).newlineBefore = false := by
      cases hk : ks[1]? with
      | none =>
        rw [List.getD_eq_getElem?_getD, hk] at hopens
        cases hopens
      | some k =>
        rw [List.getD_eq_getElem?_getD, hk] at hopens
        refine hc.newlineBefore_peek hk ?_
        rintro rfl
        cases hopens
    simp [hline]

theorem arrowAhead_eq (hc : c.Ahead ks) : arrowAhead c = arrowIn ks := by
  have hunfold : ∀ isAsync,
      (c.kind == .ident "async" && !(c.peek 1).newlineBefore && opensParams (c.peek 1).kind) = isAsync →
      arrowAhead c = (arrowAt? c (if isAsync then c.pos + 1 else c.pos)).bind fun j =>
        if (c.tokenAt j).kind == .punct .arrow then some isAsync else none := by
    rintro _ rfl
    unfold arrowAhead arrowAt? opensParams
    dsimp only
    generalize (c.tokenAt _).kind = kind
    cases kind with
    | punct p => cases p <;> rfl
    | _ => rfl
  have hhead : Cursor.Ahead { c with pos := if startsAsync ks then c.pos + 1 else c.pos }
      (if startsAsync ks then ks.tail else ks) := by
    cases hasync : startsAsync ks with
    | false => exact hc
    | true =>
      cases ks with
      | nil => cases hasync
      | cons k ks => exact hc.step
  rw [hunfold _ (startsAsync_eq hc), arrowIn]
  have hrel := arrowAt?_rel hhead
  generalize arrowAt? c _ = found at hrel ⊢
  generalize afterParams _ = after at hrel ⊢
  cases hrel with
  | none => rfl
  | @some j rest hrest =>
    have hkind : (c.tokenAt j).kind = rest.headD .eof := hrest.kind_current
    rw [Option.bind_some, Option.bind_some, hkind]

end MatchChain.Parser
