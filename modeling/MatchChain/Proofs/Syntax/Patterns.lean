import MatchChain.Proofs.Syntax.Nodes
import MatchChain.Proofs.Syntax.Spelled
import MatchChain.Proofs.Syntax.Total
import MatchChain.Proofs.Syntax.Visited

/-!
# Patterns survive printing

An expression survives printing if its text, wherever it stands as a default or a key in a pattern, is read as the
same expression up to spans, and no further. A pattern in which all expressions survive is read back from its own
text: with every hole in its place, defaults and keys where they were, and the rest at the end.
-/

set_option autoImplicit false

namespace MatchChain

variable {span : Span} {default : Option Expr} {c : Cursor} {name : String}

/-! ## Texts and their tokens -/

namespace Token.Lexes

variable {cs : List Char} {next next₁ : Option Char → Prop} {T : List Token → Prop}

theorem of_spells {kinds : List TokenKind} (h : Spells cs kinds next) : Lexes cs next (·.map (·.kind) = kinds) :=
  h.lexFrom_append.mono (fun _ h => h) fun _ h => h.1

theorem one {kind : TokenKind} (h : Spells cs [kind] next) :
    Lexes cs next fun ts => ∃ t, ts = [t] ∧ t.kind = kind :=
  (of_spells h).mono (fun _ h => h) fun _ h => List.map_eq_singleton_iff.mp h

theorem blank_append (h : Lexes cs next T) : Lexes (' ' :: cs) next T := by
  have hblank : Spells [' '] [] fun _ => True := .blank
  refine ((of_spells hblank).append h fun _ _ => trivial).mono (fun _ h => h) ?_
  rintro _ ⟨ts₁, ts, rfl, hnil, hts⟩
  rwa [List.map_eq_nil_iff.mp hnil]

theorem append_blank (h : Lexes cs next₁ T) (hnext : next₁ (some ' ')) : Lexes (cs ++ [' ']) next T := by
  refine (h.append (of_spells .blank) fun _ _ => hnext).mono (fun _ h => h) ?_
  rintro _ ⟨ts, ts₁, rfl, hts, hnil⟩
  rwa [List.map_eq_nil_iff.mp hnil, List.append_nil]

/-- A text between final punctuation. -/
theorem enclosed {p q : Punct} {c : Char} (h : Lexes cs next₁ T) (hp : p.isFinal = true) (hq : q.isFinal = true)
    (hhead : q.text.toList.head? = some c) (hnext : next₁ (some c)) :
    Lexes (p.text.toList ++ (cs ++ q.text.toList)) next fun ts =>
      ∃ l mid r, ts = l :: (mid ++ [r]) ∧ l.kind = .punct p ∧ T mid ∧ r.kind = .punct q := by
  have hclose := (one (Spells.punct q)).mono (fun next (_ : True) => Punct.ends_of_isFinal hq next) fun _ h => h
  have hopen := (one (Spells.punct p)).mono (fun next (_ : True) => Punct.ends_of_isFinal hp next) fun _ h => h
  refine (hopen.append (h.append hclose fun rest _ => ?_) fun _ _ => trivial).mono (fun _ _ => trivial) ?_
  · rwa [List.head?_append, hhead]
  · rintro _ ⟨_, _, rfl, ⟨l, rfl, hl⟩, mid, _, rfl, hmid, r, rfl, hr⟩
    exact ⟨l, mid, r, rfl, hl, hmid, hr⟩

/-- A whole text, up to the end of file. -/
theorem lex {source : String} (h : Lexes source.toList next T) (hend : next none) :
    ∃ ts eof, Token.lex source = .ok (ts ++ [eof]).toArray ∧ T ts ∧ eof.kind = .eof := by
  obtain ⟨offset, gap, ts, heq, _, hts⟩ := h [] hend 0 {} #[] rfl
  rw [List.append_nil, lexFrom] at heq
  refine ⟨ts, ⟨.eof, Lexeme.spanOf offset [], gap.lineFeed⟩, heq.trans ?_, hts, rfl⟩
  simp

end Token.Lexes

/-- The first of the tokens is of such a kind. -/
def Token.Begins (P : TokenKind → Prop) (ts : List Token) : Prop := ∃ t rest, ts = t :: rest ∧ P t.kind

namespace Token.Begins

variable {P : TokenKind → Prop} {ts : List Token}

theorem append (h : Begins P ts) (rest : List Token) : Begins P (ts ++ rest) := by
  obtain ⟨t, ts, rfl, ht⟩ := h
  exact ⟨t, ts ++ rest, rfl, ht⟩

theorem kind (h : Begins P ts) (hc : c.Sees ts) : P c.kind := by
  obtain ⟨t, ts, rfl, ht⟩ := h
  rwa [hc.kind]

end Token.Begins

/-! ## Survival -/

/-- What comes after a default or a key in the text of a pattern. -/
def EndsEntry (next : Option Char) : Prop := next = some ',' ∨ next = some ']' ∨ next = some ' '

theorem EndsEntry.endsWord {next : Option Char} (h : EndsEntry next) : EndsWord next := by
  rcases h with rfl | rfl | rfl <;> exact .of_not_isWordPart (by decide)

/-- The tokens that come after it. -/
def TokenKind.EndsEntry (k : TokenKind) : Prop := k = .punct .comma ∨ k = .punct .rbracket ∨ k = .punct .rbrace

/-- The parser reads these tokens off, with such a result, before tokens that may follow. -/
def Parser.ReadsOff {α : Type} (p : Parser α) (follow : List Token → Prop) (Q : α → Prop) (ts : List Token) : Prop :=
  ∀ (c : Cursor) (rest : List Token), c.Sees (ts ++ rest) → follow rest → Returns p c fun a c' => Q a ∧ c'.Sees rest

/-- The text of the expression is read as the same expression where an entry of a pattern ends with it. -/
def Expr.ReadsBack (self : Grammar) (e : Expr) : Prop :=
  Token.Lexes e.print.toList EndsEntry
    (Parser.ReadsOff (self .expr) (Token.Begins TokenKind.EndsEntry) fun e' => e'.bare = e.bare)

/-- The expression comes back from its text in a pattern, to every depth that suffices. -/
def Expr.Survives (e : Expr) : Prop := ∃ d, ∀ depth, d ≤ depth → e.ReadsBack (Grammar.parse depth)

/-- The key of a property, unless it takes the rest. -/
def BindingProp.key? : BindingProp → Option PropKey
  | item key .. => some key
  | rest .. => none

/-- A pattern without its spans. -/
def Binding.bare (b : Binding) : Binding := Bare.binding b

/-- A token that a pattern or a key can start with. -/
def TokenKind.startsEntry : TokenKind → Bool
  | .punct p => p == .lbracket || p == .lbrace
  | k => k != .eof

theorem TokenKind.ne_of_startsEntry {k : TokenKind} {p : Punct} (h : k.startsEntry = true)
    (hp : (p == .lbracket || p == .lbrace) = false) : k ≠ .punct p := by
  rintro rfl
  cases hp.symm.trans h

/-- The text of the pattern is read as the same pattern where no word goes on after it. -/
def Binding.ReadsBack (self : Grammar) (b : Binding) : Prop :=
  Token.Lexes b.print.toList EndsWord fun ts => Token.Begins (·.startsEntry = true) ts ∧
    Parser.ReadsOff (self .binding) (fun _ => True) (fun b' => b'.bare = b.bare) ts

def Part.ReadsBack (self : Grammar) : Part → Prop
  | .expr e => e.ReadsBack self
  | .binding b => b.ReadsBack self
  | _ => True

namespace Parser

open Token (Lexes Begins)

/-! ## Lists of entries -/

/-- What is written between an entry and the next one, if there is one. -/
def separator : Bool → List Char
  | true => [',', ' ']
  | false => []

section

variable {α : Type} {item : Parser (α × Bool)} {close : Punct} {f : α → α} {x : α} {xs : List α} {more : Bool}
  {ts ts₁ : List Token}

/-- The tokens are read as one entry, up to the comma if there are more. -/
def ReadsEntry (item : Parser (α × Bool)) (close : Punct) (f : α → α) (x : α) (more : Bool) (ts : List Token) : Prop :=
  ∀ (c : Cursor) (rest : List Token), c.Sees (ts ++ rest) → (more = false → Begins (· = .punct close) rest) →
    c.kind ≠ .punct close ∧ Returns item c fun r c' => (f r.1 = f x ∧ r.2 = more) ∧ c'.Sees rest

/-- The tokens are read as entries up to the closing token. -/
def ReadsEntries (item : Parser (α × Bool)) (close : Punct) (f : α → α) (xs : List α) (ts : List Token) : Prop :=
  ∀ (c : Cursor) (rest : List Token) (rounds : Nat) (found : List α), c.Sees (ts ++ rest) →
    Begins (· = .punct close) rest → c.remaining ≤ rounds →
      Returns (collectFor (·.check (.punct close)) item (rounds + 1) found) c fun ys c' =>
        ys.map f = (found.reverse ++ xs).map f ∧ c'.Sees rest

/-- The text is read as the entry, before the separator if there are more and where the list ends otherwise. -/
def Entry (item : Parser (α × Bool)) (close : Punct) (f : α → α) (x : α) (text : String) (more : Bool) : Prop :=
  Lexes (text.toList ++ separator more) (fun next => more = false → EndsEntry next) (ReadsEntry item close f x more)

theorem ReadsEntry.ne_nil (h : ReadsEntry item close f x more ts) : ts ≠ [] := by
  rintro rfl
  have hclosed : Cursor.Sees { tokens := #[⟨.punct close, .none, false⟩] } [⟨.punct close, .none, false⟩] := rfl
  exact (h _ _ hclosed fun _ => ⟨_, _, rfl, rfl⟩).1 rfl

theorem ReadsEntries.nil : ReadsEntries item close f [] [] := by
  intro c rest rounds found hc hrest hrounds
  have hstop : c.check (.punct close) = true := beq_iff_eq.mpr (hrest.kind hc)
  rw [collectFor]
  refine .get ?_
  rw [if_pos hstop]
  exact .pure ⟨by rw [List.append_nil], hc⟩

theorem ReadsEntries.last (h : ReadsEntry item close f x false ts) : ReadsEntries item close f [x] ts := by
  intro c rest rounds found hc hrest hrounds
  obtain ⟨hopen, hitem⟩ := h c rest hc fun _ => hrest
  have hstop : ¬c.check (.punct close) = true := fun h => hopen (eq_of_beq h)
  rw [collectFor]
  refine .get ?_
  rw [if_neg hstop]
  refine hitem.bind ?_
  rintro ⟨y, _⟩ c' ⟨⟨hy, rfl⟩, hc'⟩
  exact .pure ⟨by simp [hy], hc'⟩

theorem ReadsEntries.cons (h : ReadsEntry item close f x true ts₁) (hxs : ReadsEntries item close f xs ts) :
    ReadsEntries item close f (x :: xs) (ts₁ ++ ts) := by
  intro c rest rounds found hc hrest hrounds
  rw [List.append_assoc] at hc
  obtain ⟨hopen, hitem⟩ := h c _ hc (by rintro ⟨⟩)
  have hstop : ¬c.check (.punct close) = true := fun h => hopen (eq_of_beq h)
  rw [collectFor]
  refine .get ?_
  rw [if_neg hstop]
  refine hitem.bind ?_
  rintro ⟨y, _⟩ c' ⟨⟨hy, rfl⟩, hc'⟩
  -- The entry takes a token at least, so the rounds that are left suffice for the others.
  have hpos := List.length_pos_iff.mpr h.ne_nil
  have hleft := hc.remaining
  have hleft' := hc'.remaining
  rw [List.length_append] at hleft
  obtain ⟨rounds, rfl⟩ := Nat.exists_eq_succ_of_ne_zero (by omega : rounds ≠ 0)
  refine (hxs c' rest rounds (y :: found) hc' hrest (by omega)).imp fun ys c'' hys => ⟨?_, hys.2⟩
  simp [hys.1, hy]

/-- A whole list of entries between punctuation. -/
theorem ReadsEntries.returns_enclosed (h : ReadsEntries item close f xs ts) {β : Type} (mk : Span → List α → β)
    (start : Span) {l r : Token} {rest : List Token} (hc : c.Sees (l :: (ts ++ ([r] ++ rest))))
    (hl : l.kind ≠ .eof) (hr : r.kind = .punct close) :
    Returns (do
      modify Cursor.advance
      let ys ← collect (·.check (.punct close)) item
      let _ ← expect (.punct close)
      return mk (← spanFrom start) ys) c fun b c' => (∃ span ys, b = mk span ys ∧ ys.map f = xs.map f) ∧ c'.Sees rest := by
  have hys := h _ _ _ [] (hc.advance hl) ⟨r, rest, rfl, hr⟩ (Nat.le_refl _)
  have hcollect : Returns (collect (·.check (.punct close)) item) c.advance _ := .get hys
  refine .advance (hcollect.bind fun ys c' hys => .expect (hys.2.kind.trans hr) (.spanFrom (.pure ?_)))
  exact ⟨⟨_, ys, rfl, hys.1⟩, hys.2.advance (by rw [hr]; rintro ⟨⟩)⟩

theorem Entry.last {text : String} (h : Entry item close f x text false) :
    Lexes (text.toList ++ []) EndsEntry (ReadsEntries item close f [x]) :=
  h.mono (fun _ hnext _ => hnext) fun _ => .last

theorem lexes_entries {text : α → String} {trail : List Char} (hnil : xs = [] → trail = [])
    (hmore : ∀ x ∈ xs.dropLast, Entry item close f x (text x) true)
    (hlast : ∀ x, xs.getLast? = some x → Lexes ((text x).toList ++ trail) EndsEntry (ReadsEntries item close f [x])) :
    Lexes ((Print.commaSeparated (xs.map text)).toList ++ trail) EndsEntry (ReadsEntries item close f xs) := by
  induction xs with
  | nil =>
    rw [hnil rfl]
    exact .nil .nil
  | cons x xs ih =>
    cases xs with
    | nil => exact hlast x rfl
    | cons y xs =>
      have hrest := ih (by rintro ⟨⟩) (fun z hz => hmore z (List.mem_cons_of_mem _ hz)) fun z hz => hlast z hz
      have htext : (Print.commaSeparated ((x :: y :: xs).map text)).toList ++ trail
          = ((text x).toList ++ separator true) ++ ((Print.commaSeparated ((y :: xs).map text)).toList ++ trail) := by
        simp [Print.toList_commaSeparated, separator]
      rw [htext]
      refine ((hmore x List.mem_cons_self).append hrest fun _ _ => by rintro ⟨⟩).mono (fun _ h => h) ?_
      rintro _ ⟨ts₁, ts, rfl, hx, hxs⟩
      exact .cons hx hxs

end

/-! ## Defaults -/

section

variable {self : Grammar} {close : Punct} {more : Bool} {ts rest : List Token}

theorem lexes_separator (more : Bool) :
    Lexes (separator more) (fun _ => True) (·.map (·.kind) = if more then [.punct .comma] else []) := by
  cases more with
  | true =>
    have hcomma := (Lexes.of_spells (Token.Spells.punct .comma)).mono
      (fun next (_ : True) => Punct.ends_of_isFinal (by decide) next) fun _ h => h
    exact hcomma.append_blank trivial
  | false => exact .nil rfl

theorem endsEntry_separator {chars : List Char} (h : more = false → EndsEntry chars.head?) :
    EndsEntry (separator more ++ chars).head? := by
  cases more with
  | true => exact .inl rfl
  | false => exact h rfl

/-- Whether there are more entries is read off the comma. -/
theorem returns_separator (hclose : close = .rbracket ∨ close = .rbrace)
    (hts : ts.map (·.kind) = if more then [.punct .comma] else [])
    (hrest : more = false → Begins (· = .punct close) rest) :
    Begins TokenKind.EndsEntry (ts ++ rest) ∧ ∀ {α : Type} (x : α) (c : Cursor), c.Sees (ts ++ rest) →
      Returns (do return (x, ← eat (.punct .comma))) c fun r c' => r = (x, more) ∧ c'.Sees rest := by
  cases more with
  | true =>
    obtain ⟨t, rfl, ht⟩ := List.map_eq_singleton_iff.mp hts
    refine ⟨⟨t, rest, rfl, .inl ht⟩, fun x c hc => ?_⟩
    obtain ⟨hkind, hnext⟩ := hc.step ht (by rintro ⟨⟩)
    exact .eat hkind (.pure ⟨rfl, hnext⟩)
  | false =>
    obtain rfl := List.map_eq_nil_iff.mp hts
    obtain ⟨t, rest, rfl, ht⟩ := hrest rfl
    refine ⟨⟨t, rest, rfl, .inr ?_⟩, fun x c hc => .not_eat ?_ (.pure ⟨rfl, hc⟩)⟩
    · rcases hclose with rfl | rfl
      · exact .inl ht
      · exact .inr ht
    · rw [hc.kind, ht]
      rcases hclose with rfl | rfl <;> rintro ⟨⟩

/-- The tokens are read as the default of an entry and what stands between it and the next one. -/
def ReadsTail (self : Grammar) (close : Punct) (default : Option Expr) (more : Bool) (ts : List Token) : Prop :=
  ∀ {α : Type} (mk : Option Expr → α) (c : Cursor) (rest : List Token), c.Sees (ts ++ rest) →
    (more = false → Begins (· = .punct close) rest) → c.kind ≠ .punct .colon ∧
      Returns (do let d ← default? self; return (mk d, ← eat (.punct .comma))) c fun r c' =>
        (∃ d, r = (mk d, more) ∧ Bare.expr? d = Bare.expr? default) ∧ c'.Sees rest

theorem lexes_tail (hclose : close = .rbracket ∨ close = .rbrace) (more : Bool)
    (hdefault : ∀ m ∈ Part.ofValue default, m.ReadsBack self) :
    Lexes ((Print.defaultText 0 default).toList ++ separator more) (fun next => more = false → EndsEntry next)
      (ReadsTail self close default more) := by
  have hseparator : Lexes (separator more) (fun next => more = false → EndsEntry next) _ :=
    (lexes_separator more).mono (fun _ _ => trivial) fun _ h => h
  cases default with
  | none =>
    refine hseparator.mono (fun _ h => h) fun ts hts α mk c rest hc hrest => ?_
    obtain ⟨hends, hcomma⟩ := returns_separator hclose hts hrest
    have hne : c.kind ≠ .punct .colon ∧ c.kind ≠ .punct .eq := by
      rcases hends.kind hc with h | h | h <;> rw [h] <;> exact ⟨by rintro ⟨⟩, by rintro ⟨⟩⟩
    have hnone : Returns (default? self) c fun d c' => d = none ∧ c'.Sees (ts ++ rest) :=
      .not_eat hne.2 (.pure ⟨rfl, hc⟩)
    refine ⟨hne.1, hnone.bind ?_⟩
    rintro _ c' ⟨rfl, hc'⟩
    exact (hcomma _ c' hc').imp fun r c'' hr => ⟨⟨none, hr.1, rfl⟩, hr.2⟩
  | some e =>
    have hread : e.ReadsBack self := hdefault _ (List.mem_singleton.mpr rfl)
    have hvalue := hread.append hseparator fun _ => endsEntry_separator
    have heq : Lexes ['='] (· = some ' ') fun ts => ∃ t, ts = [t] ∧ t.kind = .punct .eq := by
      refine (Lexes.one (Token.Spells.punct .eq)).mono ?_ fun _ h => h
      rintro _ rfl _ ⟨⟩
      decide
    have htext : (Print.defaultText 0 (some e)).toList ++ separator more
        = ' ' :: (['='] ++ ' ' :: (e.print.toList ++ separator more)) := by
      rw [Print.defaultText, Print.place_assignment, String.toList_append]
      rfl
    rw [htext]
    refine (heq.append hvalue.blank_append fun _ _ => rfl).blank_append.mono (fun _ h => h) ?_
    rintro _ ⟨_, _, rfl, ⟨t, rfl, ht⟩, ts₁, ts₂, rfl, hts₁, hts₂⟩ α mk c rest hc hrest
    obtain ⟨hends, hcomma⟩ := returns_separator hclose hts₂ hrest
    rw [List.append_assoc, List.append_assoc, List.singleton_append] at hc
    obtain ⟨hkind, hnext⟩ := hc.step ht (by rintro ⟨⟩)
    have hsome : Returns (default? self) c fun d c' => (∃ e', d = some e' ∧ e'.bare = e.bare) ∧ c'.Sees (ts₂ ++ rest) :=
      .eat hkind ((hts₁ _ _ hnext hends).bind
        fun e' c' he' => .pure ⟨⟨e', rfl, he'.1⟩, he'.2⟩)
    refine ⟨by rw [hkind]; rintro ⟨⟩, hsome.bind ?_⟩
    rintro _ c' ⟨⟨e', rfl, he'⟩, hc'⟩
    exact (hcomma _ c' hc').imp fun r c'' hr => ⟨⟨some e', hr.1, congrArg some he'⟩, hr.2⟩

theorem endsWord_tail (default : Option Expr) {chars : List Char} (h : more = false → EndsEntry chars.head?) :
    EndsWord ((Print.defaultText 0 default).toList ++ separator more ++ chars).head? := by
  cases default with
  | none => exact (endsEntry_separator h).endsWord
  | some e =>
    rw [Print.defaultText, String.toList_append]
    exact .of_not_isWordPart (c := ' ') (by decide)

theorem lexes_ellipsis : Lexes ['.', '.', '.'] (fun _ => True) fun ts => ∃ t, ts = [t] ∧ t.kind = .punct .ellipsis :=
  (Lexes.one (Token.Spells.punct .ellipsis)).mono (fun _ _ => Punct.ends_of_isFinal (by decide) _) fun _ h => h

/-! ## Array patterns -/

theorem lexes_elem (more : Bool) {e : BindingElem} (hparts : ∀ m ∈ Part.ofElem e, m.ReadsBack self) (hhole : e ≠ .hole)
    (hlast : more = true → e.isRest = false) :
    Entry (bindingElem self) .rbracket Bare.elem e (Print.bindingElem 0 e) more := by
  cases e with
  | hole => exact absurd rfl hhole
  | item target default =>
    have htarget : target.ReadsBack self := hparts _ List.mem_cons_self
    have htail := lexes_tail (.inl rfl) more fun m hm => hparts m (List.mem_cons_of_mem _ hm)
    rw [Entry, Print.bindingElem, String.toList_append, List.append_assoc]
    refine (htarget.append htail fun _ => endsWord_tail default).mono (fun _ h => h) ?_
    rintro _ ⟨ts₁, ts₂, rfl, ⟨hstarts, htarget⟩, htail⟩ c rest hc hrest
    rw [List.append_assoc] at hc
    have hstart := (hstarts.append _).kind hc
    refine ⟨TokenKind.ne_of_startsEntry hstart rfl, ?_⟩
    rw [Parser.bindingElem]
    refine .not_eat (TokenKind.ne_of_startsEntry hstart rfl) (.not_eat (TokenKind.ne_of_startsEntry hstart rfl) ?_)
    refine (htarget c _ hc trivial).bind fun b c₁ hb => ?_
    refine (htail (BindingElem.item b) c₁ rest hb.2 hrest).2.imp ?_
    rintro _ c₂ ⟨⟨d, rfl, hd⟩, hc₂⟩
    refine ⟨⟨?_, rfl⟩, hc₂⟩
    rw [Bare.elem, Bare.elem, hd]
    exact congrArg (BindingElem.item · _) hb.1
  | rest target =>
    have htarget : target.ReadsBack self := hparts _ List.mem_cons_self
    obtain rfl : more = false := by
      cases more with
      | true => cases hlast rfl
      | false => rfl
    rw [Entry, Print.bindingElem, String.toList_append, separator, List.append_nil]
    refine (lexes_ellipsis.append htarget fun _ _ => trivial).mono (fun _ h => (h rfl).endsWord) ?_
    rintro _ ⟨_, ts, rfl, ⟨t, rfl, ht⟩, -, htarget⟩ c rest hc hrest
    rw [List.append_assoc, List.singleton_append] at hc
    obtain ⟨hkind, hnext⟩ := hc.step ht (by rintro ⟨⟩)
    refine ⟨by rw [hkind]; rintro ⟨⟩, ?_⟩
    rw [Parser.bindingElem]
    refine .not_eat (by rw [hkind]; rintro ⟨⟩) (.eat hkind ?_)
    refine (htarget _ rest hnext trivial).bind fun b c₁ hb => ?_
    exact .pure ⟨⟨congrArg BindingElem.rest hb.1, rfl⟩, hb.2⟩

theorem readsEntry_hole (hts : ts.map (·.kind) = [.punct .comma]) :
    ReadsEntry (bindingElem self) .rbracket Bare.elem .hole true ts := by
  intro c rest hc _
  obtain ⟨t, rfl, ht⟩ := List.map_eq_singleton_iff.mp hts
  obtain ⟨hkind, hnext⟩ := hc.step ht (by rintro ⟨⟩)
  refine ⟨by rw [hkind]; rintro ⟨⟩, ?_⟩
  rw [Parser.bindingElem]
  exact .eat hkind (.pure ⟨⟨rfl, rfl⟩, hnext⟩)

theorem lexes_elems {es : List BindingElem} (hparts : ∀ m ∈ es.flatMap Part.ofElem, m.ReadsBack self)
    (hlast : ∀ e ∈ es.dropLast, e.isRest = false) :
    Lexes (Print.commaSeparated (Print.bindingElems 0 es) ++ Print.trailingComma es).toList EndsEntry
      (ReadsEntries (bindingElem self) .rbracket Bare.elem es) := by
  have hof : ∀ e ∈ es, ∀ m ∈ Part.ofElem e, m.ReadsBack self := fun e he m hm =>
    hparts m (List.mem_flatMap_of_mem he hm)
  have hcomma : Lexes [','] EndsEntry (·.map (·.kind) = [.punct .comma]) :=
    (Lexes.of_spells (Token.Spells.punct .comma)).mono (fun next _ => Punct.ends_of_isFinal (by decide) next)
      fun _ h => h
  rw [Print.bindingElems_eq_map, String.toList_append]
  refine lexes_entries (fun h => by rw [h]; rfl) (fun e he => ?_) fun e he => ?_
  · by_cases hhole : e = .hole
    · subst hhole
      exact (lexes_separator true).mono (fun _ _ => trivial) fun _ => readsEntry_hole
    · exact lexes_elem true (hof e (List.dropLast_subset _ he)) hhole fun _ => hlast e he
  · by_cases hhole : e = .hole
    · subst hhole
      rw [Print.trailingComma, he]
      refine hcomma.mono (fun _ h => h) fun ts hts => ?_
      rw [← List.append_nil ts]
      exact .cons (readsEntry_hole hts) .nil
    · have htrail : Print.trailingComma es = "" := by
        rw [Print.trailingComma, he]
        cases e with
        | hole => exact absurd rfl hhole
        | _ => rfl
      rw [htrail]
      exact (lexes_elem false (hof e (List.mem_of_getLast? he)) hhole (by rintro ⟨⟩)).last

/-! ## Object patterns -/

theorem lexes_key {key : PropKey} (hword : ∀ name, key = .ident name → IsWord name)
    (hnum : ∀ value, key ≠ .num value) (hparts : ∀ m ∈ Part.ofKey key, m.ReadsBack self) :
    Lexes (Print.propKey 0 key).toList (· = some ':') fun ts => Begins (·.startsEntry = true) ts ∧
      ReadsOff (propKey self) (fun _ => True) (fun r => Bare.propKey r.1 = Bare.propKey key) ts := by
  have hcolon : EndsWord (some ':') := .of_not_isWordPart (by decide)
  cases key with
  | ident name =>
    refine (Lexes.one (Token.Spells.word (hword name rfl))).mono (fun _ h => h ▸ hcolon) ?_
    rintro _ ⟨t, rfl, ht⟩
    rcases wordKind_cases name with ⟨k, hk, htext⟩ | hk
    · rw [hk] at ht
      refine ⟨⟨t, [], rfl, by rw [ht]; rfl⟩, fun c rest hc _ => ?_⟩
      obtain ⟨hkind, hnext⟩ := hc.step ht (by rintro ⟨⟩)
      have hname : Returns propertyName c fun w c' => w = name ∧ c'.Sees rest := by
        rw [propertyName]
        refine .kind ?_
        rw [hkind]
        exact .advance (.pure ⟨htext, hnext⟩)
      rw [propKey]
      refine .kind ?_
      rw [hkind]
      refine hname.bind ?_
      rintro _ c' ⟨rfl, hc'⟩
      exact .pure ⟨rfl, hc'⟩
    · rw [hk] at ht
      refine ⟨⟨t, [], rfl, by rw [ht]; rfl⟩, fun c rest hc _ => ?_⟩
      rw [propKey]
      refine .kind ?_
      rw [hc.kind, ht]
      exact .advance (.pure ⟨rfl, hc.advance (by rw [ht]; rintro ⟨⟩)⟩)
  | str text =>
    refine (Lexes.one (Token.Spells.quoted text)).mono (fun _ h => h) ?_
    rintro _ ⟨t, rfl, ht⟩
    refine ⟨⟨t, [], rfl, by rw [ht]; rfl⟩, fun c rest hc _ => ?_⟩
    rw [propKey]
    refine .kind ?_
    rw [hc.kind, ht]
    exact .advance (.pure ⟨rfl, hc.advance (by rw [ht]; rintro ⟨⟩)⟩)
  | num value => exact absurd rfl (hnum value)
  | computed e =>
    have hread : e.ReadsBack self := hparts _ List.mem_cons_self
    have htext : (Print.propKey 0 (.computed e)).toList
        = Punct.lbracket.text.toList ++ (e.print.toList ++ Punct.rbracket.text.toList) := by
      rw [Print.propKey, Print.place_assignment, String.append_assoc, String.toList_append, String.toList_append]
      rfl
    rw [htext]
    refine (hread.enclosed (by decide) (by decide) rfl (.inr (.inl rfl))).mono (fun _ h => h) ?_
    rintro _ ⟨l, mid, r, rfl, hl, hmid, hr⟩
    refine ⟨⟨l, _, rfl, by rw [hl]; rfl⟩, fun c rest hc _ => ?_⟩
    rw [List.cons_append, List.append_assoc] at hc
    rw [propKey]
    refine .kind ?_
    rw [hc.kind, hl]
    refine .advance ((hmid _ _ (hc.advance (by rw [hl]; rintro ⟨⟩)) ⟨r, rest, rfl, .inr (.inl hr)⟩).bind fun e' c' he' => ?_)
    refine .expect (he'.2.kind.trans hr) (.pure ⟨congrArg PropKey.computed he'.1, he'.2.advance (by rw [hr]; rintro ⟨⟩)⟩)

theorem lexes_item (more : Bool) {key : PropKey} {value : Binding}
    (hword : ∀ name, key = .ident name → IsWord name) (hnum : ∀ value, key ≠ .num value)
    (hparts : ∀ m ∈ Part.ofKey key ++ .binding value :: Part.ofValue default, m.ReadsBack self) :
    Entry (bindingProp self) .rbrace Bare.bindingProp (.item key value default false)
      (Print.bindingProp 0 (.item key value default false)) more := by
  have hkey := lexes_key hword hnum fun m hm => hparts m (List.mem_append_left _ hm)
  have hvalue : value.ReadsBack self := hparts _ (List.mem_append_right _ List.mem_cons_self)
  have htail := lexes_tail (.inr rfl) more fun m hm =>
    hparts m (List.mem_append_right _ (List.mem_cons_of_mem _ hm))
  have hcolon : Lexes [':'] (· = some ' ') fun ts => ∃ t, ts = [t] ∧ t.kind = .punct .colon := by
    refine (Lexes.one (Token.Spells.punct .colon)).mono ?_ fun _ h => h
    rintro _ rfl _ ⟨⟩
    decide
  have htext : (Print.bindingProp 0 (.item key value default false)).toList ++ separator more
      = (Print.propKey 0 key).toList ++
        ([':'] ++ ' ' :: (value.print.toList ++ ((Print.defaultText 0 default).toList ++ separator more))) := by
    simp [Print.bindingProp, Print.isShorthand, Binding.print]
  rw [Entry, htext]
  have hbound := (hvalue.append htail fun _ => endsWord_tail default).blank_append
  refine (hkey.append (hcolon.append hbound fun _ _ => rfl) fun _ _ => rfl).mono (fun _ h => h) ?_
  rintro _ ⟨ts₁, _, rfl, ⟨hstarts, hkey⟩, _, _, rfl, ⟨t, rfl, ht⟩, ts₂, ts₃, rfl, ⟨-, hvalue⟩, htail⟩ c rest hc hrest
  simp only [List.append_assoc, List.cons_append, List.nil_append] at hc
  have hstart := (hstarts.append _).kind hc
  refine ⟨TokenKind.ne_of_startsEntry hstart rfl, ?_⟩
  rw [bindingProp]
  refine .not_eat (TokenKind.ne_of_startsEntry hstart rfl) (.here ((hkey c _ hc trivial).bind ?_))
  rintro ⟨key', alone⟩ c₁ ⟨hkey', hc₁⟩
  have hbinding : Returns (bindingValue self c.current.span alone) c₁ fun r c' =>
      (r.1.bare = value.bare ∧ r.2 = false) ∧ c'.Sees (ts₃ ++ rest) :=
    .eat (hc₁.kind.trans ht) ((hvalue _ _ (hc₁.advance (by rw [ht]; rintro ⟨⟩)) trivial).bind
      fun b c' hb => .pure ⟨⟨hb.1, rfl⟩, hb.2⟩)
  refine hbinding.bind ?_
  rintro ⟨b, _⟩ c₂ ⟨⟨hb, rfl⟩, hc₂⟩
  refine (htail (BindingProp.item key' b · false) c₂ rest hc₂ hrest).2.imp ?_
  rintro _ c₃ ⟨⟨d, rfl, hd⟩, hc₃⟩
  refine ⟨⟨?_, rfl⟩, hc₃⟩
  have hb : Bare.binding b = Bare.binding value := hb
  rw [Bare.bindingProp, Bare.bindingProp, hkey', hb, hd]

theorem lexes_shorthand (more : Bool) (hname : IsName name)
    (hdefault : ∀ m ∈ Part.ofValue default, m.ReadsBack self) :
    Entry (bindingProp self) .rbrace Bare.bindingProp (.item (.ident name) (.ident span name) default true)
      (Print.bindingProp 0 (.item (.ident name) (.ident span name) default true)) more := by
  have htail := lexes_tail (.inr rfl) more hdefault
  have htext : (Print.bindingProp 0 (.item (.ident name) (.ident span name) default true)).toList ++ separator more
      = name.toList ++ ((Print.defaultText 0 default).toList ++ separator more) := by
    simp [Print.bindingProp, Print.isShorthand, Print.bindingName?, Print.binding]
  rw [Entry, htext]
  refine ((Lexes.one (Token.Spells.name hname)).append htail fun _ => endsWord_tail default).mono (fun _ h => h) ?_
  rintro _ ⟨_, ts, rfl, ⟨t, rfl, ht⟩, htail⟩ c rest hc hrest
  rw [List.append_assoc, List.singleton_append] at hc
  obtain ⟨hkind, hnext⟩ := hc.step ht (by rintro ⟨⟩)
  refine ⟨by rw [hkind]; rintro ⟨⟩, ?_⟩
  have hkey : Returns (propKey self) c fun r c' => r = (.ident name, some name) ∧ c' = c.advance := by
    rw [propKey]
    refine .kind ?_
    rw [hkind]
    exact .advance (.pure ⟨rfl, rfl⟩)
  rw [bindingProp]
  refine .not_eat (by rw [hkind]; rintro ⟨⟩) (.here (hkey.bind ?_))
  rintro _ _ ⟨rfl, rfl⟩
  have htail := htail (BindingProp.item (.ident name) (.ident c.current.span name) · true) _ rest hnext hrest
  refine Returns.bind (Q := fun r c' => r = (.ident c.current.span name, true) ∧ c' = c.advance)
    (.not_eat htail.1 (.pure ⟨rfl, rfl⟩)) ?_
  rintro _ _ ⟨rfl, rfl⟩
  refine htail.2.imp ?_
  rintro _ c₃ ⟨⟨d, rfl, hd⟩, hc₃⟩
  refine ⟨⟨?_, rfl⟩, hc₃⟩
  simp [Bare.bindingProp, Bare.binding, hd]

theorem lexes_restProp (hname : IsName name) :
    Entry (bindingProp self) .rbrace Bare.bindingProp (.rest span name) (Print.bindingProp 0 (.rest span name)) false := by
  rw [Entry, Print.bindingProp, String.toList_append, separator, List.append_nil]
  refine (lexes_ellipsis.append (Lexes.one (Token.Spells.name hname)) fun _ _ => trivial).mono (fun _ h => (h rfl).endsWord) ?_
  rintro _ ⟨_, _, rfl, ⟨l, rfl, hl⟩, t, rfl, ht⟩ c rest hc _
  obtain ⟨hkind, hnext⟩ := hc.step hl (by rintro ⟨⟩)
  have hnamed : c.advance.current.kind = .ident name := hnext.kind.trans ht
  have hread : Returns Parser.name c.advance fun r c' => r.1 = name ∧ c'.Sees rest := by
    rw [Parser.name]
    refine .current ?_
    rw [hnamed]
    exact .advance (.pure ⟨rfl, hnext.advance (by rw [ht]; rintro ⟨⟩)⟩)
  refine ⟨by rw [hkind]; rintro ⟨⟩, ?_⟩
  rw [bindingProp]
  refine .eat hkind (hread.bind ?_)
  rintro ⟨_, _⟩ c' ⟨rfl, hc'⟩
  exact .pure ⟨⟨rfl, rfl⟩, hc'⟩

theorem lexes_props {ps : List BindingProp} (hspelled : ∀ p ∈ ps, p.Spelled)
    (hnum : ∀ p ∈ ps, ∀ value, p.key? ≠ some (.num value))
    (hparts : ∀ m ∈ ps.flatMap Part.ofBindingProp, m.Spelled ∧ m.ReadsBack self)
    (hlast : ∀ p ∈ ps.dropLast, p.isRest = false) :
    Lexes ((Print.commaSeparated (Print.bindingProps 0 ps)).toList ++ []) EndsEntry
      (ReadsEntries (bindingProp self) .rbrace Bare.bindingProp ps) := by
  have hitem : ∀ p ∈ ps, p.isRest = false → ∀ more,
      Entry (bindingProp self) .rbrace Bare.bindingProp p (Print.bindingProp 0 p) more := by
    intro p hp hrest more
    have hof : ∀ m ∈ Part.ofBindingProp p, m.Spelled ∧ m.ReadsBack self := fun m hm =>
      hparts m (List.mem_flatMap_of_mem hp hm)
    cases p with
    | rest => cases hrest
    | item key value default shorthand =>
      obtain ⟨hword, halone⟩ := hspelled _ hp
      cases shorthand with
      | false => exact lexes_item more hword (fun v hv => hnum _ hp v (congrArg some hv)) fun m hm => (hof m hm).2
      | true =>
        obtain ⟨span, name, rfl, rfl⟩ := halone rfl
        exact lexes_shorthand more (hof _ List.mem_cons_self).1 fun m hm => (hof m (List.mem_cons_of_mem _ hm)).2
  rw [Print.bindingProps_eq_map]
  refine lexes_entries (fun _ => rfl) (fun p hp => hitem p (List.dropLast_subset _ hp) (hlast p hp) true) fun p hp => ?_
  have hmem := List.mem_of_getLast? hp
  cases p with
  | item => exact (hitem _ hmem rfl false).last
  | rest span name => exact (lexes_restProp (hparts _ (List.mem_flatMap_of_mem hmem List.mem_cons_self)).1).last

/-! ## Patterns -/

theorem readsBack_ident (hname : IsName name) (depth : Nat) :
    (Binding.ident span name).ReadsBack (Grammar.parse (depth + 1)) := by
  refine (Lexes.one (Token.Spells.name hname)).mono (fun _ h => h) ?_
  rintro _ ⟨t, rfl, ht⟩
  refine ⟨⟨t, [], rfl, by rw [ht]; rfl⟩, fun c rest hc _ => ?_⟩
  have hkind : c.current.kind = .ident name := hc.kind.trans ht
  show Returns (binding (Grammar.parse depth)) c _
  rw [binding]
  refine .current ?_
  rw [hkind]
  exact .advance (.pure ⟨rfl, hc.advance (by rw [ht]; rintro ⟨⟩)⟩)

theorem readsBack_array {es : List BindingElem} {depth : Nat}
    (hparts : ∀ m ∈ es.flatMap Part.ofElem, m.ReadsBack (Grammar.parse depth))
    (hlast : ∀ e ∈ es.dropLast, e.isRest = false) :
    (Binding.array span es).ReadsBack (Grammar.parse (depth + 1)) := by
  have htext : (Binding.array span es).print.toList = Punct.lbracket.text.toList ++
      ((Print.commaSeparated (Print.bindingElems 0 es) ++ Print.trailingComma es).toList ++ Punct.rbracket.text.toList) := by
    simp [Binding.print, Print.binding, Punct.text]
  rw [Binding.ReadsBack, htext]
  refine ((lexes_elems hparts hlast).enclosed (by decide) (by decide) rfl (.inr (.inl rfl))).mono (fun _ h => h) ?_
  rintro _ ⟨l, mid, r, rfl, hl, hmid, hr⟩
  refine ⟨⟨l, _, rfl, by rw [hl]; rfl⟩, fun c rest hc _ => ?_⟩
  rw [List.cons_append, List.append_assoc] at hc
  have hkind : c.current.kind = .punct .lbracket := hc.kind.trans hl
  show Returns (binding (Grammar.parse depth)) c _
  rw [binding]
  refine .current ?_
  rw [hkind]
  refine (hmid.returns_enclosed Binding.array _ hc (by rw [hl]; rintro ⟨⟩) hr).imp ?_
  rintro _ c' ⟨⟨span', ys, rfl, hys⟩, hc'⟩
  refine ⟨?_, hc'⟩
  show Bare.binding _ = Bare.binding _
  rw [Bare.binding, Bare.binding, Bare.elems_eq_map, Bare.elems_eq_map, hys]

theorem readsBack_object {ps : List BindingProp} {depth : Nat} (hspelled : ∀ p ∈ ps, p.Spelled)
    (hnum : ∀ p ∈ ps, ∀ value, p.key? ≠ some (.num value))
    (hparts : ∀ m ∈ ps.flatMap Part.ofBindingProp, m.Spelled ∧ m.ReadsBack (Grammar.parse depth))
    (hlast : ∀ p ∈ ps.dropLast, p.isRest = false) :
    (Binding.object span ps).ReadsBack (Grammar.parse (depth + 1)) := by
  have hprops := lexes_props hspelled hnum hparts hlast
  rw [List.append_nil] at hprops
  obtain ⟨inner, htext, hinner⟩ : ∃ inner, (Binding.object span ps).print.toList
        = Punct.lbrace.text.toList ++ (inner ++ Punct.rbrace.text.toList) ∧
      Lexes inner (fun _ => True) (ReadsEntries (bindingProp (Grammar.parse depth)) .rbrace Bare.bindingProp ps) := by
    cases ps with
    | nil => exact ⟨[], by simp [Binding.print, Print.binding, Print.bindingProps, Print.braced, Punct.text], .nil .nil⟩
    | cons p ps =>
      refine ⟨_, ?_, (hprops.append_blank (.inr (.inr rfl))).blank_append⟩
      simp [Binding.print, Print.binding, Print.bindingProps, Print.braced, Punct.text]
  rw [Binding.ReadsBack, htext]
  refine (hinner.enclosed (by decide) (by decide) rfl trivial).mono (fun _ h => h) ?_
  rintro _ ⟨l, mid, r, rfl, hl, hmid, hr⟩
  refine ⟨⟨l, _, rfl, by rw [hl]; rfl⟩, fun c rest hc _ => ?_⟩
  rw [List.cons_append, List.append_assoc] at hc
  have hkind : c.current.kind = .punct .lbrace := hc.kind.trans hl
  show Returns (binding (Grammar.parse depth)) c _
  rw [binding]
  refine .current ?_
  rw [hkind]
  refine (hmid.returns_enclosed Binding.object _ hc (by rw [hl]; rintro ⟨⟩) hr).imp ?_
  rintro _ c' ⟨⟨span', ys, rfl, hys⟩, hc'⟩
  refine ⟨?_, hc'⟩
  show Bare.binding _ = Bare.binding _
  rw [Bare.binding, Bare.binding, Bare.bindingProps_eq_map, Bare.bindingProps_eq_map, hys]

end

end Parser

/-! ## Every pattern -/

/-- A depth that suffices for every part of a list. -/
theorem Part.exists_depth {ms : List Part} (h : ∀ m ∈ ms, ∃ d, ∀ depth, d ≤ depth → m.ReadsBack (Grammar.parse depth)) :
    ∃ d, ∀ depth, d ≤ depth → ∀ m ∈ ms, m.ReadsBack (Grammar.parse depth) := by
  induction ms with
  | nil => exact ⟨0, fun _ _ _ hm => absurd hm List.not_mem_nil⟩
  | cons m ms ih =>
    obtain ⟨d₁, hm⟩ := h m List.mem_cons_self
    obtain ⟨d₂, hms⟩ := ih fun m' hm' => h m' (List.mem_cons_of_mem _ hm')
    refine ⟨max d₁ d₂, fun depth hdepth => List.forall_mem_cons.mpr ⟨hm depth ?_, hms depth ?_⟩⟩ <;> omega

namespace Binding

/-- The pattern and the patterns in it satisfy `P`. -/
inductive Every (P : Binding → Prop) : Binding → Prop
  | intro {b : Binding} : P b → (∀ b', .binding b' ∈ (Part.binding b).children → Every P b') → Every P b

/-- The defaults and keys of the pattern itself survive printing, and none of the keys is a number. -/
structure Legible (b : Binding) : Prop where
  exprs : ∀ e, .expr e ∈ (Part.binding b).children → e.Survives
  keys : ∀ span ps, b = .object span ps → ∀ p ∈ ps, ∀ value, p.key? ≠ some (.num value)

theorem readsBack_of_every {b : Binding} (h : b.Every Legible) (hspelled : (Part.binding b).All Part.Spelled) :
    ∃ d, ∀ depth, d ≤ depth → b.ReadsBack (Grammar.parse depth) := by
  induction h with
  | @intro b hb _ ih =>
    obtain ⟨d, hparts⟩ := Part.exists_depth fun m (hm : m ∈ (Part.binding b).children) => by
      cases m with
      | expr e => exact hb.exprs e hm
      | binding b' => exact ih b' hm (hspelled.children _ hm)
      | _ => exact ⟨0, fun _ _ => trivial⟩
    refine ⟨d + 1, fun depth hdepth => ?_⟩
    obtain ⟨depth, rfl⟩ := Nat.exists_eq_succ_of_ne_zero (by omega : depth ≠ 0)
    replace hparts := hparts depth (Nat.le_of_succ_le_succ hdepth)
    cases b with
    | ident span name => exact Parser.readsBack_ident hspelled.here depth
    | array span es => exact Parser.readsBack_array hparts hspelled.here
    | object span ps =>
      exact Parser.readsBack_object hspelled.here.1 (hb.keys span ps rfl)
        (fun m hm => ⟨(hspelled.children m hm).here, hparts m hm⟩) hspelled.here.2

/-- Reads a text that is one pattern. -/
def parse (source : String) : Except SyntaxError Binding :=
  parseWith source fun self => do
    let b ← self .binding
    let _ ← Parser.expect .eof
    return b

end Binding

/-! ## Literals -/

namespace Parser

/-- A loop that adds nothing. -/
theorem Returns.chain {α : Type} {link : α → Parser (Option α)} {x : α} {Q : α → Cursor → Prop}
    (hlink : link x c = .ok (none, c)) (hx : Q x c) : Returns (Parser.chain link x) c Q := by
  refine .get ?_
  rw [chainFor, Returns, bind_ok hlink]
  exact ⟨x, c, rfl, hx⟩

/-- A string literal is read through all levels of operators, up to what ends it. -/
theorem returns_str {text : String} (hkind : c.kind = .str text) (hnext : closes c.advance.kind = true)
    (depth : Nat) : Returns (Grammar.parse (depth + 3) .expr) c fun e c' =>
      e = .str c.current.span text ∧ c' = c.advance := by
  have hcurrent : c.current.kind = .str text := hkind
  have hprimary : Returns (constructOrPrimary (Grammar.parse depth)) c fun e c' =>
      e = .str c.current.span text ∧ c' = c.advance := by
    refine .check ?_
    rw [hkind, if_neg (by rintro ⟨⟩), primary]
    refine .current ?_
    rw [hcurrent]
    exact .advance (.pure ⟨rfl, rfl⟩)
  have hunary : Returns (Grammar.parse (depth + 1) .unary) c fun e c' =>
      e = .str c.current.span text ∧ c' = c.advance := by
    show Returns (unary (Grammar.parse depth)) c _
    rw [unary]
    refine .current ?_
    rw [hcurrent]
    refine .here (hprimary.bind ?_)
    rintro _ _ ⟨rfl, rfl⟩
    exact .chain (link_none (endsOperand_of_closes hnext)) ⟨rfl, rfl⟩
  have hbinary : Returns (Grammar.parse (depth + 2) (.binary 0)) c fun e c' =>
      e = .str c.current.span text ∧ c' = c.advance := by
    refine .here (hunary.bind ?_)
    rintro _ _ ⟨rfl, rfl⟩
    refine .chain (binaryLink_none fun op hop => ?_) ⟨rfl, rfl⟩
    rw [binaryOp?_of_closes hnext] at hop
    cases hop
  have hconditional : Returns (conditional (Grammar.parse (depth + 2))) c fun e c' =>
      e = .str c.current.span text ∧ c' = c.advance := by
    refine .here (hbinary.bind ?_)
    rintro _ _ ⟨rfl, rfl⟩
    exact .not_eat (ne_question_of_closes hnext) (.pure ⟨rfl, rfl⟩)
  have harrow : arrowAhead c = none := by
    simp [arrowAhead, hkind, show (c.tokenAt c.pos).kind = .str text from hkind]
  show Returns (Parser.expr (Grammar.parse (depth + 2))) c _
  rw [Parser.expr]
  refine .get ?_
  rw [harrow]
  refine .here (hconditional.bind ?_)
  rintro _ _ ⟨rfl, rfl⟩
  refine .kind ?_
  rw [assignOp?_of_closes hnext]
  exact .pure ⟨rfl, rfl⟩

end Parser

theorem Expr.survives_str (span : Span) (text : String) : (Expr.str span text).Survives := by
  refine ⟨3, fun depth hdepth => ?_⟩
  obtain ⟨depth, rfl⟩ := Nat.exists_eq_add_of_le' hdepth
  refine (Token.Lexes.one (Token.Spells.quoted text)).mono (fun _ h => h) ?_
  rintro _ ⟨t, rfl, ht⟩ c rest hc hrest
  have hnext := hc.advance (by rw [ht]; rintro ⟨⟩)
  have hcloses : Parser.closes c.advance.kind = true := by
    rcases hrest.kind hnext with h | h | h <;> rw [h] <;> rfl
  refine (Parser.returns_str (hc.kind.trans ht) hcloses depth).imp ?_
  rintro _ _ ⟨rfl, rfl⟩
  exact ⟨rfl, hnext⟩

/-- A text is read as a pattern to every depth as it is to one that suffices. -/
theorem Parser.binding_agrees {source : String} {tokens : Array Token} {d : Nat} (hlex : Token.lex source = .ok tokens)
    (hd : depthFor source.length ≤ d) :
    Grammar.parse (depthFor source.length) .binding { tokens } = Grammar.parse d .binding { tokens } := by
  have hlast := (Token.bounded_of_lexAt hlex).last
  rw [← String.length_toList] at hd ⊢
  have hready := Cursor.ready_of_lexAt (L := .blind) (c := { tokens }) hlex trivial rfl hlast.1
  exact (Grammar.parse_agrees hd .binding (hready.mono (by decide))).eq

namespace Binding

/-- A pattern of a program that was read is read again from its own text, up to spans, if the defaults and keys in
    it survive printing. -/
theorem parse_print_of_mem {source : String} {p : Program} (hread : Program.parse source = .ok p) {s : Stmt}
    (hs : s ∈ p) {b : Binding} (hb : (Part.stmt s).Holds (fun _ => true) (.binding b)) (hlegible : b.Every Legible) :
    ∃ b', Binding.parse b.print = .ok b' ∧ b'.bare = b.bare := by
  have hspelled : (Part.binding b).All Part.Spelled :=
    (hb.all (Program.all_good_of_parse (L := .blind) trivial hread s hs)).imp fun _ hgood => hgood.spelled
  obtain ⟨d, hreads⟩ := readsBack_of_every hlegible hspelled
  obtain ⟨ts, eof, hlex, ⟨-, hts⟩, heof⟩ := (hreads _ (Nat.le_max_right (depthFor b.print.length) d)).lex EndsWord.none
  obtain ⟨b', c, hparse, hbare, hc⟩ := hts { tokens := (ts ++ [eof]).toArray } [eof] rfl trivial
  refine ⟨b', ?_, hbare⟩
  rw [← Parser.binding_agrees hlex (Nat.le_max_left _ d)] at hparse
  have hrun : (do
      let b ← Grammar.parse (depthFor b.print.length) .binding
      let _ ← Parser.expect .eof
      return b : Parser Binding) { tokens := (ts ++ [eof]).toArray } = .ok (b', c.advance) := by
    rw [Parser.bind_ok hparse, Parser.bind_ok (Parser.expect_ok (hc.kind.trans heof))]
    rfl
  rw [Binding.parse, parseWith, parseTo, hlex]
  show Prod.fst <$> _ = _
  rw [hrun]
  rfl

def mixedSource : String := "const [, a = 'x', \x7b b, 'c d': [...e], ...f \x7d, ,] = g;"

/-- Whether a pattern is of the form that the one in `mixedSource` has. -/
def isMixed : Binding → Bool
  | .array _ [.hole, .item (.ident ..) (some (.str ..)), .item (.object _ [.item (.ident _) (.ident ..) none _,
      .item (.str _) (.array _ [.rest (.ident ..)]) none _, .rest ..]) none, .hole] => true
  | _ => false

/-- Whether a program is the declaration of such a pattern. -/
def declaresMixed : Program → Bool
  | [.varDecl _ _ [⟨_, b, _⟩]] => b.isMixed
  | _ => false

theorem every_of_isMixed {b : Binding} (h : b.isMixed = true) : b.Every Legible := by
  have hident (span : Span) (name : String) : (Binding.ident span name).Every Legible :=
    .intro ⟨by simp [Part.children], by rintro _ _ ⟨⟩⟩ (by simp [Part.children])
  have hrest (span span' : Span) (name : String) : (Binding.array span [.rest (.ident span' name)]).Every Legible :=
    .intro ⟨by simp [Part.children, Part.ofElem], by rintro _ _ ⟨⟩⟩ (by simp [Part.children, Part.ofElem, hident])
  unfold isMixed at h
  split at h
  · refine .intro ⟨?_, by rintro _ _ ⟨⟩⟩ fun b' hb' => ?_
    · simp [Part.children, Part.ofElem, Part.ofValue, Expr.survives_str]
    · simp [Part.children, Part.ofElem, Part.ofValue] at hb'
      rcases hb' with rfl | rfl
      · exact hident _ _
      · refine .intro ⟨?_, ?_⟩ ?_
        · simp [Part.children, Part.ofBindingProp, Part.ofKey, Part.ofValue]
        · rintro _ _ ⟨⟩
          simp [BindingProp.key?]
        · simp [Part.children, Part.ofBindingProp, Part.ofKey, Part.ofValue, hident, hrest]
  · cases h

/-- Holes at both ends, a default, and a rest in a nested array and an object. -/
theorem parse_print_mixedPattern : ∃ p s b b', Program.parse mixedSource = .ok p ∧ s ∈ p ∧
    (Part.stmt s).Holds (fun _ => true) (.binding b) ∧ b.isMixed = true ∧ b.Every Legible ∧
      Binding.parse b.print = .ok b' ∧ b'.bare = b.bare := by
  have hread : (Program.parse mixedSource).toOption.any declaresMixed = true := by decide +kernel
  cases hp : Program.parse mixedSource with
  | error cause =>
    rw [hp] at hread
    cases hread
  | ok p =>
    rw [hp] at hread
    change declaresMixed p = true at hread
    unfold declaresMixed at hread
    split at hread
    · rename_i span kind span' b init
      have hholds : (Part.stmt (.varDecl span kind [⟨span', b, init⟩])).Holds (fun _ => true) (.binding b) :=
        .child rfl List.mem_cons_self (.child rfl List.mem_cons_self (.refl _))
      obtain ⟨b', hparse, hbare⟩ := parse_print_of_mem hp List.mem_cons_self hholds (every_of_isMixed hread)
      exact ⟨_, _, b, b', rfl, List.mem_cons_self, hholds, hread, every_of_isMixed hread, hparse, hbare⟩
    · cases hread

end Binding

end MatchChain
