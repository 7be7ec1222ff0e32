import MatchChain.Proofs.Syntax.Statements

/-!
# The parser comes to an end

The depth of the grammar and the rounds of its loops are bounds that no text reaches. From every token
of a text every symbol of the grammar reads the same to each depth from `depthFor` on, and if it reads
something it takes a token; so does every round of a loop after which there is another. A hole of a
template literal, whose code is read with a cursor of its own, is shorter than the text around it.
-/

set_option autoImplicit false

namespace MatchChain

variable {L : Locator} {source : String}

namespace Parser

/-! ## Loops -/

/-- The loops of the grammar. -/
inductive Loop where
  | program
  | block
  | bindingElems
  | bindingProps
  | params
  | arrayItems
  | properties
  | args
  | declarators (kind : VarKind)
  | specifiers
  | links (start : Span) (e : Expr)
  | constructLinks (start : Span) (e : Expr)
  | operators (tightness : Nat) (start : Span) (left : Expr)

/-- One round of a loop, and whether it says that another may follow. -/
def Loop.round : Loop → Grammar → Parser Bool
  | program, self => return (← programItem self).2
  | block, self => return (← blockItem self).2
  | bindingElems, self => return (← bindingElem self).2
  | bindingProps, self => return (← bindingProp self).2
  | params, self => return (← itemOf (param self)).2
  | arrayItems, self => return (← itemOf (arrayItem self)).2
  | properties, self => return (← itemOf (property self)).2
  | args, self => return (← itemOf (element self)).2
  | declarators kind, self => return (← itemOf (declarator self kind)).2
  | specifiers, _ => return (← itemOf namedSpecifier).2
  | links start e, self => return (← link self start e).isSome
  | constructLinks start e, self => return (← constructLink self start e).isSome
  | operators tightness start left, self => return (← binaryLink self tightness start left).isSome

/-- What a round may do: it stays on the tokens, and takes one if another round may follow. -/
def MovesOn (c : Cursor) (more : Bool) (c' : Cursor) : Prop := c.Reaches c' ∧ (more = true → c.Takes c')

section

variable {α : Type} {L : Locator} {d : Nat} {c : Cursor}

theorem Agree.round_of_reads {p q : Parser (α × Bool)} {parts : α × Bool → List Part} (h : Reads L d 5 p q parts)
    (hready : c.Ready L d 5) : Agree (do return (← p).2) (do return (← q).2) c (MovesOn c) :=
  (h hready).bind fun _ _ hr => .pure ⟨hr.1.reaches, fun _ => hr.1⟩

theorem Agree.round_of_linked {p q : Parser (Option α)} {I : α → Cursor → Prop} (h : Agree p q c (Linked I c))
    (hsound : c.Sound L) : Agree (do return (← p).isSome) (do return (← q).isSome) c (MovesOn c) := by
  refine h.bind ?_
  rintro (_ | y) c' hy
  · obtain rfl : c' = c := hy
    exact .pure ⟨.refl hsound, by rintro ⟨⟩⟩
  · exact .pure ⟨hy.1.reaches, fun _ => hy.1⟩

variable {self self' : Grammar} (h : Grammar.Agrees L d self self')

include h

theorem Reads.programItem : Reads L d 5 (programItem self) (programItem self') fun r => [.stmt r.1] :=
  fun _ hready => (h.stmt hready).bind fun _ _ hs => .pure hs

theorem Agree.round (l : Loop) (hready : c.Ready L d 5) : Agree (l.round self) (l.round self') c (MovesOn c) := by
  cases l with
  | program => exact .round_of_reads (Reads.programItem h) hready
  | block => exact .round_of_reads (Reads.blockItem h) hready
  | bindingElems => exact .round_of_reads (Reads.bindingElem h) hready
  | bindingProps => exact .round_of_reads (Reads.bindingProp h) hready
  | params => exact .round_of_reads (Reads.param h).round hready
  | arrayItems => exact .round_of_reads (Reads.arrayItem h).round hready
  | properties => exact .round_of_reads (Reads.property h).round hready
  | args => exact .round_of_reads (Reads.element h).round hready
  | declarators kind => exact .round_of_reads (Reads.declarator h kind).round hready
  | specifiers => exact .round_of_reads Reads.namedSpecifier.round hready
  | links start e => exact .round_of_linked (Agree.link h hready start e) hready.sound
  | constructLinks start e => exact .round_of_linked (Agree.constructLink h hready start e) hready.sound
  | operators tightness start left => exact .round_of_linked (Agree.binaryLink h hready tightness start left) hready.sound

end

/-! ## Settling -/

/-- From `c` the parser comes to an end before depth `d`: it does the same to every greater depth and does
    not fail for want of it, it stays on the tokens, and it takes one if its result `goesOn`. -/
structure Finishes {α : Type} (p : Grammar → Parser α) (goesOn : α → Bool) (d : Nat) (c : Cursor) : Prop where
  settled : ∀ d', d ≤ d' → p (.parse d') c = p (.parse d) c
  shallow : ∀ span, p (.parse d) c ≠ .error (.tooDeep span)
  inside : ∀ a c', p (.parse d) c = .ok (a, c') → c.Reaches c'
  takes : ∀ a c', p (.parse d) c = .ok (a, c') → goesOn a = true → c.Takes c'

section

variable {α : Type} {p q : Parser α} {c : Cursor} {Q : α → Cursor → Prop}

theorem Agree.eq (h : Agree p q c Q) : p c = q c := by
  cases h with
  | ok hp hq => rw [hp, hq]
  | error hp hq => rw [hp, hq]

theorem Agree.ne_tooDeep (h : Agree p q c Q) (span : Span) : p c ≠ .error (.tooDeep span) := by
  intro heq
  cases h with
  | ok hp => rw [hp] at heq; cases heq
  | error hp _ he =>
    rw [hp] at heq
    exact he span (Except.error.inj heq)

theorem Finishes.of_agree {p : Grammar → Parser α} {goesOn : α → Bool} {d : Nat}
    (h : ∀ d', d ≤ d' → Agree (p (.parse d)) (p (.parse d')) c fun a c' => MovesOn c (goesOn a) c') :
    Finishes p goesOn d c where
  settled d' hd := (h d' hd).eq.symm
  shallow := (h d (Nat.le_refl d)).ne_tooDeep
  inside _ _ heq := ((h d (Nat.le_refl d)).of_ok heq).1
  takes _ _ heq := ((h d (Nat.le_refl d)).of_ok heq).2

end

end Parser

/-! ## All texts -/

open Parser (Loop Finishes)

/-- What makes the parser come to an end on the tokens of a text. -/
structure Token.Bounded (text : List Char) (tokens : Array Token) : Prop where
  /-- The end of file is the last token, and no other is. -/
  last : 0 < tokens.size ∧ ∀ i (_ : i < tokens.size), tokens[i].kind = .eof ↔ i + 1 = tokens.size
  /-- The code in a template literal is shorter than the text. -/
  holes : ∀ t ∈ tokens, ∀ parts, t.kind = .template parts → ∀ hole ∈ parts.holes, hole.code.length < text.length
  advance : ∀ c : Cursor, c.tokens = tokens → c.pos < tokens.size → c.advance.pos < tokens.size
  symbol : ∀ (s : Symbol) (c : Cursor), c.tokens = tokens → c.pos < tokens.size →
    Finishes (fun self => self s) (fun _ => true) (depthFor text.length) c
  loop : ∀ (l : Loop) (c : Cursor), c.tokens = tokens → c.pos < tokens.size →
    Finishes l.round id (depthFor text.length) c

section

variable {base : Nat} {text : List Char} {tokens : Array Token}

/-- Every cursor on the tokens of a text has enough depth before it. -/
theorem Cursor.ready_of_lexAt {c : Cursor} (hlex : Token.lexAt base text = .ok tokens)
    (hat : L.At base text) (htokens : c.tokens = tokens) (hpos : c.pos < tokens.size) :
    c.Ready L (depthFor text.length) 5 := by
  subst htokens
  obtain ⟨hweights, hlaid⟩ := Token.laid_of_lexAt hlex hat
  have hdrop := Token.weights_drop_le c.tokens.toList c.pos
  refine ⟨⟨⟨_, _, hlaid⟩, hpos⟩, ?_⟩
  exact Nat.add_le_add_right (Nat.mul_le_mul_left 5 (Nat.le_trans hdrop hweights)) 5

theorem Token.weight_le_weights {t : Token} {ts : List Token} (h : t ∈ ts) : t.kind.weight ≤ weights ts := by
  induction ts with
  | nil => cases h
  | cons first ts ih =>
    rw [weights]
    rcases List.mem_cons.mp h with rfl | hmem
    · exact Nat.le_add_right _ _
    · exact Nat.le_trans (ih hmem) (Nat.le_add_left _ _)

theorem Token.bounded_of_lexAt (hlex : lexAt base text = .ok tokens) : Bounded text tokens := by
  obtain ⟨hweights, hlaid⟩ := laid_of_lexAt (L := .blind) hlex trivial
  have hready (c : Cursor) (htokens : c.tokens = tokens) (hpos : c.pos < tokens.size) :=
    Cursor.ready_of_lexAt (L := .blind) hlex trivial htokens hpos
  refine ⟨⟨hlaid.length_pos, ?_⟩, ?_, ?_, ?_, ?_⟩
  · intro i hi
    exact hlaid.kind_eq_eof_iff hi
  · intro t ht parts hparts hole hhole
    have hweight := weight_le_weights (Array.mem_toList_iff.mpr ht)
    have hlength := length_le_codeLength hhole
    rw [hparts, TokenKind.weight] at hweight
    omega
  · intro c htokens hpos
    have hsound := (hready c htokens hpos).sound
    by_cases hkind : c.kind = .eof
    · have hstays : c.advance = c := if_pos (beq_iff_eq.mpr hkind)
      rw [hstays]
      exact hpos
    · have htakes := hsound.takes_advance hkind
      have hinside := htakes.inside
      rwa [htakes.tokens, htokens] at hinside
  · intro s c htokens hpos
    refine .of_agree fun d' hd => ?_
    have hrank : Parser.rank s ≤ 5 := by cases s <;> simp [Parser.rank]
    refine (Grammar.parse_agrees hd s ((hready c htokens hpos).mono hrank)).imp fun _ _ hr => ?_
    exact ⟨hr.1.1.reaches, fun _ => hr.1.1⟩
  · intro l c htokens hpos
    exact .of_agree fun d' hd => Parser.Agree.round (Grammar.parse_agrees hd) l (hready c htokens hpos)

end

/-- To every depth from `depthFor` on a program is read the same. -/
theorem Parser.Agree.program {c : Cursor} {d d' : Nat} (hd : d ≤ d') (hready : c.Ready L d 5) :
    Agree (program (.parse d)) (program (.parse d')) c fun p c' =>
      c.Reaches c' ∧ ∀ m ∈ p.map Part.stmt, m.Fits L c c' :=
  MayRead.collect_map (Reads.programItem (Grammar.parse_agrees hd)) hready

/-- What a parser guarantees where the depth suffices holds of what it reads from a text. -/
theorem Parser.of_parseWith {α : Type} {parser : Grammar → Parser α} {a : α}
    {Q : α → Prop} (hat : L.At 0 source.toList) (h : parseWith source parser = .ok a)
    (hparser : ∀ {c : Cursor} {d : Nat}, c.Ready L d 5 →
      Agree (parser (.parse d)) (parser (.parse d)) c fun a _ => Q a) : Q a := by
  rw [parseWith, parseTo, ← String.length_toList] at h
  cases hlex : Token.lex source with
  | error cause => rw [hlex] at h; cases h
  | ok tokens =>
    rw [hlex] at h
    change Prod.fst <$> parser _ _ = _ at h
    have hlast := (Token.bounded_of_lexAt hlex).last
    have hready := Cursor.ready_of_lexAt (c := { tokens }) hlex hat rfl hlast.1
    cases hrun : parser (.parse (depthFor source.toList.length)) { tokens } with
    | error e => rw [hrun] at h; cases h
    | ok r =>
      rw [hrun] at h
      cases h
      exact (hparser hready).of_ok hrun

/-- Every part of a program that was read is in its place in what is known of the text. -/
theorem Program.all_good_of_parse {p : Program} (hat : L.At 0 source.toList)
    (h : Program.parse source = .ok p) : ∀ s ∈ p, (Part.stmt s).All (Part.Good L) := by
  refine Parser.of_parseWith (Q := fun p => ∀ s ∈ p, (Part.stmt s).All (Part.Good L)) hat h fun hready => ?_
  refine (Parser.Agree.program (Nat.le_refl _) hready).imp fun p c' hp s hs => ?_
  exact (hp.2 _ (List.mem_map_of_mem hs)).all

theorem Expr.all_good_of_parse {e : Expr} (hat : L.At 0 source.toList)
    (h : Expr.parse source = .ok e) : (Part.expr e).All (Part.Good L) := by
  refine Parser.of_parseWith (Q := fun e => (Part.expr e).All (Part.Good L)) hat h fun hready => ?_
  refine ((Grammar.parse_agrees (Nat.le_refl _)).expr (hready.mono (by decide))).bind fun e c' he => ?_
  exact .expect fun _ => .pure (he.2 _ List.mem_cons_self).all

theorem Parser.program_agrees {tokens : Array Token} {d : Nat}
    (hlex : Token.lex source = .ok tokens) (hd : depthFor source.length ≤ d) :
    Agree (program (.parse (depthFor source.length))) (program (.parse d)) { tokens } fun _ _ => True := by
  have hlast := (Token.bounded_of_lexAt hlex).last
  rw [← String.length_toList] at hd ⊢
  have hready := Cursor.ready_of_lexAt (L := .blind) (c := { tokens }) hlex trivial rfl hlast.1
  exact (Agree.program hd hready).imp fun _ _ _ => trivial

/-- The parser is total: neither its depth nor its rounds are ever what ends it. -/
theorem Program.parse_total (source : String) :
    (∀ d, depthFor source.length ≤ d → parseTo d source Parser.program = Program.parse source) ∧
      (∀ span, Program.parse source ≠ .error (.tooDeep span)) ∧
      ∀ base text tokens, Token.lexAt base text = .ok tokens → Token.Bounded text tokens := by
  refine ⟨fun d hd => ?_, fun span => ?_, fun base text tokens => Token.bounded_of_lexAt⟩
  · rw [Program.parse, parseWith, parseTo, parseTo]
    cases hlex : Token.lex source with
    | error cause => rfl
    | ok tokens => exact congrArg (Functor.map Prod.fst) (Parser.program_agrees hlex hd).eq.symm
  · rw [Program.parse, parseWith, parseTo]
    cases hlex : Token.lex source with
    | error cause => rintro ⟨⟩
    | ok tokens =>
      have hshallow := (Parser.program_agrees hlex (Nat.le_refl _)).ne_tooDeep span
      show Prod.fst <$> Parser.program _ _ ≠ _
      intro heq
      cases hrun : Parser.program (.parse (depthFor source.length)) { tokens } with
      | ok r => rw [hrun] at heq; cases heq
      | error e =>
        rw [hrun] at heq hshallow
        cases heq
        exact hshallow rfl

end MatchChain
