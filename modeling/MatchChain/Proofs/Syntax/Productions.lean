import MatchChain.Proofs.Syntax.Fit

/-!
# What every production reads

The contract of the grammar, and a proof for each production that it meets its part of the contract if
the symbols it mentions do at a smaller depth.
-/

set_option autoImplicit false

namespace MatchChain

variable {c c' : Cursor} {k : TokenKind}

/-! ## The contract -/

namespace Parser

/-- How many symbols lead from a symbol to its first token at most, itself included. -/
def rank : Symbol → Nat
  | .stmt => 5
  | .expr => 4
  | .binary _ => 3
  | .unary => 2
  | .construct | .binding => 1

/-- The part that a symbol reads. -/
def partOf : (s : Symbol) → s.Result → Part
  | .stmt, s => .stmt s
  | .binding, b => .binding b
  | .expr, e | .binary _, e | .unary, e | .construct, e => .expr e

/-- What comes after a symbol: no `else` that would belong to it. -/
def Before : (s : Symbol) → s.Result → Cursor → Prop
  | .stmt, s, c => s.endsOpen = true → c.kind ≠ .keyword .«else»
  | _, _, _ => True

end Parser

/-- At every cursor for which the depth `d` suffices, the two grammars read the same. -/
def Grammar.Agrees (L : Locator) (d : Nat) (self self' : Grammar) : Prop :=
  ∀ (s : Symbol) ⦃c : Cursor⦄, c.Ready L d (Parser.rank s) → Parser.Agree (self s) (self' s) c fun r c' =>
    (c.Takes c' ∧ ∀ m ∈ [Parser.partOf s r], m.Fits L c c') ∧ Parser.Before s r c'

namespace Grammar.Agrees

open Parser

variable {L : Locator} {d : Nat} {self self' : Grammar} (h : Agrees L d self self')

include h

theorem reads (s : Symbol) : Reads L d (rank s) (self s) (self' s) fun r => [partOf s r] :=
  fun _ hready => (h s hready).imp fun _ _ hr => hr.1

theorem expr : Reads L d 4 (self .expr) (self' .expr) fun e => [.expr e] := h.reads .expr

theorem binary (tightness : Nat) :
    Reads L d 3 (self (.binary tightness)) (self' (.binary tightness)) fun e => [.expr e] :=
  h.reads (.binary tightness)

theorem unary : Reads L d 2 (self .unary) (self' .unary) fun e => [.expr e] := h.reads .unary

theorem construct : Reads L d 1 (self .construct) (self' .construct) fun e => [.expr e] := h.reads .construct

theorem binding : Reads L d 1 (self .binding) (self' .binding) fun b => [.binding b] := h.reads .binding

theorem stmt : Reads L d 5 (self .stmt) (self' .stmt) fun s => [.stmt s] := h.reads .stmt

end Grammar.Agrees

theorem FuncKind.expression_ne_arrow : expression ≠ arrow := by rintro ⟨⟩

namespace Parser

open Cursor (Ready Progress)
open Part (ofKey ofValue ofElem ofBindingProp ofBody ofCatch)

variable {L : Locator} {d : Nat} {self self' : Grammar} (h : Grammar.Agrees L d self self')

include h

/-! ## Bindings -/

theorem MayRead.default? : MayRead L d (default? self) (default? self') ofValue := by
  intro c hready
  refine .eat (fun hk => ?_) fun _ => .pure ⟨.refl hready.sound, List.forall_mem_nil _⟩
  have r := hready.begin.punct hk
  exact (h.expr.from r (by decide)).bind fun e c₁ r₁ => .pure ⟨r₁.takes.reaches, r₁.fits⟩

/-- A key that could also stand alone is a single token. -/
theorem Agree.propKey {c : Cursor} (hready : c.Ready L d 0) : Agree (propKey self) (propKey self') c fun r c' =>
    Progress L d 5 c (ofKey r.1) c' ∧ (∀ name, r.1 = .ident name → IsWord name) ∧
      ∀ name, r.2 = some name → r.1 = .ident name ∧ c.kind = .ident name ∧ c' = c.advance := by
  have r := hready.progress (by decide)
  refine .kind ?_
  split
  next name hk =>
    refine .advance (.pure ⟨r.advance (ne_eof hk (TokenKind.ident_ne_eof _)), ?_, ?_⟩)
    · rintro _ ⟨⟩
      exact (hready.sound.isName hk).word
    · rintro _ ⟨⟩
      exact ⟨rfl, hk, rfl⟩
  next hk =>
    exact .advance (.pure ⟨r.advance (ne_eof hk (TokenKind.str_ne_eof _)), by rintro _ ⟨⟩, by rintro _ ⟨⟩⟩)
  next hk => exact .advance (.pure ⟨r.advance (ne_eof hk (by rintro ⟨⟩)), by rintro _ ⟨⟩, by rintro _ ⟨⟩⟩)
  next hk =>
    refine .advance ((h.expr.from (r.punct hk) (by decide)).bind fun e c₁ r₁ => ?_)
    exact .expect fun hk₁ => .pure ⟨r₁.punct hk₁, by rintro _ ⟨⟩, by rintro _ ⟨⟩⟩
  next =>
    refine .propertyName_bind hready.sound fun name hword hk => .pure ⟨r.advance hk, ?_, by rintro _ ⟨⟩⟩
    rintro _ ⟨⟩
    exact hword

theorem Reads.bindingElem : Reads L d 5 (bindingElem self) (bindingElem self') fun r => ofElem r.1 := by
  intro c hready
  have r := hready.begin
  refine .eat (fun hk => .pure (r.punct hk).result) fun _ => ?_
  refine .eat (fun hk => ?_) fun _ => ?_
  · have r₁ := r.punct hk
    exact (h.binding.from r₁ (by decide)).bind fun target c₂ r₂ => .pure r₂.result
  · refine (h.binding.from r (by decide)).bind fun target c₁ r₁ => ?_
    refine ((MayRead.default? h).from r₁).bind fun default c₂ r₂ => ?_
    exact .eating fun more c₃ he => .pure (r₂.eaten he (TokenKind.punct_ne_eof _)).result

theorem Agree.bindingValue {key : PropKey} {alone : Option String}
    (r : Progress L d 5 c (ofKey key) c')
    (halone : ∀ name, alone = some name → key = .ident name ∧ c.kind = .ident name ∧ c' = c.advance) :
    Agree (bindingValue self c.current.span alone) (bindingValue self' c.current.span alone) c' fun value c'' =>
      Progress L d 5 c (ofKey key ++ [.binding value.1]) c'' := by
  refine .eat (fun hk => ?_) fun _ => ?_
  · have r₁ := r.punct hk
    exact (h.binding.from r₁ (by decide)).bind fun value c₂ r₂ => .pure r₂
  · cases alone with
    | none => exact .failExpected
    | some name =>
      obtain ⟨-, hk, rfl⟩ := halone name rfl
      exact .pure (r.add (r.sound.bound hk))

theorem Reads.bindingProp : Reads L d 5 (bindingProp self) (bindingProp self') fun r => ofBindingProp r.1 := by
  intro c hready
  have r := hready.begin
  refine .eat (fun hk => .name fun name hk₁ => .pure ?_) fun _ => .here ?_
  · have r₁ := r.punct hk
    exact (r₁.one (ne_eof hk₁ (TokenKind.ident_ne_eof _)) (r₁.ready.sound.bound hk₁)).result
  · refine (Agree.propKey h (hready.mono (by decide))).bind ?_
    rintro ⟨key, alone⟩ c₁ ⟨r₁, -, halone⟩
    refine (Agree.bindingValue h r₁ halone).bind fun value c₂ r₂ => ?_
    refine ((MayRead.default? h).from r₂).bind fun default c₃ r₃ => .eating fun more c₄ he => .pure ?_
    have r₄ := r₃.eaten he (TokenKind.punct_ne_eof _)
    rw [List.append_assoc] at r₄
    exact r₄.result

omit h in
theorem isRest_of_bindingElem {e : BindingElem} {more : Bool}
    (he : bindingElem self c = .ok ((e, more), c')) : more = true → e.isRest = false := by
  rintro rfl
  obtain ⟨hole, _, -, he⟩ := bind_eq_ok he
  split at he
  · cases he
    rfl
  obtain ⟨rest, _, -, he⟩ := bind_eq_ok he
  split at he
  · obtain ⟨_, _, -, he⟩ := bind_eq_ok he
    cases he
  · obtain ⟨_, _, -, he⟩ := bind_eq_ok he
    obtain ⟨_, _, -, he⟩ := bind_eq_ok he
    obtain ⟨_, _, -, he⟩ := bind_eq_ok he
    cases he
    rfl

omit h in
/-- Nothing follows an element that takes the rest. -/
theorem isRest_of_bindingElems {stop : Cursor → Bool} {es : List BindingElem}
    (hes : collect stop (bindingElem self) c = .ok (es, c')) : ∀ e ∈ es.dropLast, e.isRest = false := by
  have hround : ∀ ⦃c x more c'⦄, True → bindingElem self c = .ok ((x, more), c') →
      (more = true → x.isRest = false) ∧ True := fun _ _ _ _ _ hx => ⟨isRest_of_bindingElem hx, trivial⟩
  exact fun e he => (forall_of_collectFor hround trivial (List.forall_mem_nil _) hes).2 e he rfl

omit h in
theorem alone_of_bindingValue {keySpan : Span} {alone : Option String} {value : Binding}
    (hvalue : bindingValue self keySpan alone c = .ok ((value, true), c')) :
    ∃ name, alone = some name ∧ value = .ident keySpan name := by
  obtain ⟨named, _, -, hvalue⟩ := bind_eq_ok hvalue
  split at hvalue
  · obtain ⟨_, _, -, hvalue⟩ := bind_eq_ok hvalue
    cases hvalue
  cases alone with
  | none =>
    obtain ⟨_, _, -, hvalue⟩ := bind_eq_ok hvalue
    cases hvalue
  | some name =>
    cases hvalue
    exact ⟨name, rfl, rfl⟩

theorem spelled_of_bindingProp {p : BindingProp} {more : Bool} (hready : c.Ready L d 5)
    (hp : bindingProp self c = .ok ((p, more), c')) : p.Spelled ∧ (more = true → p.isRest = false) := by
  obtain ⟨rest, c₁, hrest, hp⟩ := bind_eq_ok hp
  cases rest with
  | true =>
    obtain ⟨_, _, -, hp⟩ := bind_eq_ok hp
    cases hp
    exact ⟨trivial, by rintro ⟨⟩⟩
  | false =>
    cases eq_of_eat hrest
    obtain ⟨keySpan, c₂, hhere, hp⟩ := bind_eq_ok hp
    cases hhere
    obtain ⟨⟨key, alone⟩, c₃, hkey, hp⟩ := bind_eq_ok hp
    obtain ⟨⟨value, shorthand⟩, c₄, hvalue, hp⟩ := bind_eq_ok hp
    obtain ⟨_, _, -, hp⟩ := bind_eq_ok hp
    obtain ⟨_, _, -, hp⟩ := bind_eq_ok hp
    cases hp
    obtain ⟨-, hword, halone⟩ := (Agree.propKey h (hready.mono (by decide))).of_ok hkey
    refine ⟨⟨hword, ?_⟩, fun _ => rfl⟩
    rintro rfl
    obtain ⟨name, rfl, rfl⟩ := alone_of_bindingValue hvalue
    exact ⟨_, name, (halone name rfl).1, rfl⟩

theorem spelled_of_bindingProps {stop : Cursor → Bool} {ps : List BindingProp}
    (hready : c.Ready L d 5) (hps : collect stop (bindingProp self) c = .ok (ps, c')) :
    (∀ p ∈ ps, p.Spelled) ∧ ∀ p ∈ ps.dropLast, p.isRest = false := by
  have hround : ∀ ⦃c x more c'⦄, c.Ready L d 5 → bindingProp self c = .ok ((x, more), c') →
      (x.Spelled ∧ (more = true → x.isRest = false)) ∧ c'.Ready L d 5 := by
    intro c x more c' hc hx
    have hread := (Reads.bindingProp h hc).of_ok hx
    exact ⟨spelled_of_bindingProp h hc hx, (hc.begin.extend hread.1 hread.2).ready⟩
  obtain ⟨hall, hlast⟩ := forall_of_collectFor hround hready (List.forall_mem_nil _) hps
  refine ⟨fun p hp => ?_, fun p hp => (hlast p hp).2 rfl⟩
  obtain ⟨more, hp, -⟩ := hall p hp
  exact hp

theorem Reads.binding : Reads L d 0 (binding self) (binding self') fun b => [.binding b] := by
  intro c hready
  have r := hready.progress (by decide)
  refine .current ?_
  split
  next name hk =>
    exact .advance (.pure (r.one (ne_eof hk (TokenKind.ident_ne_eof _)) (hready.sound.bound hk)).result)
  next hk =>
    have r₁ := r.punct hk
    refine .advance (((MayRead.collect (Reads.bindingElem h)).from r₁).withRun.bind ?_)
    rintro elems c₂ ⟨hrun, r₂⟩
    refine .expect fun hk₂ => .spanFrom (.pure ((r₂.punct hk₂).finished rfl rfl rfl rfl ?_))
    exact isRest_of_bindingElems hrun
  next hk =>
    have r₁ := r.punct hk
    refine .advance (((MayRead.collect (Reads.bindingProp h)).from r₁).withRun.bind ?_)
    rintro props c₂ ⟨hrun, r₂⟩
    refine .expect fun hk₂ => .spanFrom (.pure ((r₂.punct hk₂).finished rfl rfl rfl rfl ?_))
    exact spelled_of_bindingProps h r₁.ready hrun
  next => exact .throw (by rintro _ ⟨⟩)

theorem Reads.param : Reads L d 5 (param self) (param self') fun p => [.param p] := by
  intro c hready
  refine .here (.eating fun rest c₁ he => ?_)
  obtain ⟨k, hk, r₁⟩ : ∃ k, 1 ≤ k ∧ Progress L d k c [] c₁ := by
    cases he with
    | yes hk => exact ⟨5, by decide, hready.begin.punct hk⟩
    | no => exact ⟨4, by decide, hready.begin⟩
  refine (h.binding.from r₁ hk).bind fun target c₂ r₂ => ((MayRead.default? h).from r₂).bind fun default c₃ r₃ => ?_
  refine .check (.ite (fun _ => .spanFrom (.throw_bind (by rintro _ ⟨⟩))) fun hrest => .spanFrom (.pure ?_))
  refine r₃.finished rfl rfl rfl rfl ?_
  rintro rfl
  cases default with
  | none => rfl
  | some e => exact absurd rfl hrest

theorem Reads.params : Reads L d 0 (params self) (params self') (List.map Part.param) := by
  intro c hready
  refine .expect fun hk => ?_
  have r := (hready.progress (by decide)).punct hk
  exact (((Reads.param h).commaList_map (TokenKind.punct_ne_eof _)).from r (by decide)).imp fun _ _ r₁ => r₁.result

omit h in
/-- What takes the rest of the arguments stands before the closing parenthesis. -/
theorem kind_of_rest {p : Param} (hp : param self c = .ok (p, c')) (hrest : p.rest = true) :
    c'.kind = .punct .rparen := by
  obtain ⟨start, c₁, -, hp⟩ := bind_eq_ok hp
  obtain ⟨rest, c₂, -, hp⟩ := bind_eq_ok hp
  obtain ⟨target, c₃, -, hp⟩ := bind_eq_ok hp
  obtain ⟨default, c₄, -, hp⟩ := bind_eq_ok hp
  obtain ⟨closes, c₅, hcloses, hp⟩ := bind_eq_ok hp
  cases hcloses
  split at hp
  next =>
    obtain ⟨_, _, _, hp⟩ := bind_eq_ok hp
    obtain ⟨_, _, hp, _⟩ := bind_eq_ok hp
    cases hp
  next hclosed =>
    cases hp
    rw [show rest = true from hrest] at hclosed
    simp only [Bool.true_and, Bool.or_eq_true, Bool.not_eq_true', not_or, Bool.not_eq_false] at hclosed
    exact eq_of_beq hclosed.2

omit h in
theorem rest_of_params {ps : List Param} (hps : params self c = .ok (ps, c')) :
    ∀ p ∈ ps.dropLast, p.rest = false := by
  obtain ⟨_, _, -, hps⟩ := bind_eq_ok hps
  refine forall_dropLast_of_commaList (fun c p c' hp hcomma => Bool.eq_false_iff.mpr fun hrest => ?_) hps
  rw [kind_of_rest hp hrest] at hcomma
  cases hcomma

omit h in
theorem rest_of_arrowParams {ps : List Param} (hps : arrowParams self c = .ok (ps, c')) :
    ∀ p ∈ ps.dropLast, p.rest = false := by
  obtain ⟨token, _, -, hps⟩ := bind_eq_ok hps
  generalize token.kind = k at hps
  cases k with
  | ident name =>
    obtain ⟨_, _, -, hps⟩ := bind_eq_ok hps
    cases hps
    exact List.forall_mem_nil _
  | _ => exact rest_of_params hps

/-! ## Functions -/

theorem Reads.blockItem : Reads L d 5 (blockItem self) (blockItem self') fun r => [.stmt r.1] := by
  intro c hready
  refine .current (.ite (fun _ => .throw_bind (by rintro _ ⟨⟩)) fun _ => ?_)
  exact (h.stmt hready).bind fun s c₁ hs => .pure hs

theorem Reads.block : Reads L d 0 (block self) (block self') (List.map Part.stmt) := by
  intro c hready
  refine .expect fun hk => ?_
  have r := (hready.progress (by decide)).punct hk
  refine ((MayRead.collect_map (Reads.blockItem h)).from r).bind fun body c₁ r₁ => .expect fun hk₁ => .pure ?_
  exact (r₁.punct hk₁).result

omit h in
theorem Agree.functionName {c₀ c : Cursor} {ms : List Part} (kind : FuncKind) (r : Progress L d 5 c₀ ms c) :
    Agree (functionName kind) (functionName kind) c fun name c' =>
      Progress L d 5 c₀ ms c' ∧ ∀ x ∈ name, IsName x := by
  refine .current ?_
  split
  next hk =>
    refine .advance (.pure ⟨r.advance (ne_eof hk (TokenKind.ident_ne_eof _)), ?_⟩)
    rintro _ ⟨⟩
    exact r.ready.sound.isName hk
  next => exact .ite (fun _ => .throw (by rintro _ ⟨⟩)) fun _ => .pure ⟨r, by rintro _ ⟨⟩⟩

theorem Agree.functionRest {c₀ c : Cursor} {ms : List Part} {k : Nat} (r : Progress L d k c₀ ms c) {kind : FuncKind}
    (hkind : kind ≠ .arrow) {name : Option String} (hname : ∀ x ∈ name, IsName x) (isAsync isGenerator : Bool) :
    Agree (functionRest self kind c₀.current.span name isAsync isGenerator)
      (functionRest self' kind c₀.current.span name isAsync isGenerator) c fun fn c' =>
        Progress L d 5 c₀ (ms ++ [.func fn]) c' := by
  refine ((Reads.params h).from r (Nat.zero_le _)).bind fun params c₁ r₁ => ?_
  refine ((Reads.block h).from r₁ (Nat.zero_le _)).bind fun body c₂ r₂ => .spanFrom (.pure ?_)
  rw [List.append_assoc] at r₂
  exact r₂.wrap rfl rfl rfl rfl ⟨hname, fun harrow => absurd harrow hkind⟩

theorem Agree.function {c₀ c : Cursor} {k : Nat} (r : Progress L d k c₀ [] c) {kind : FuncKind}
    (hkind : kind ≠ .arrow) (isAsync : Bool) :
    Agree (function self kind c₀.current.span isAsync) (function self' kind c₀.current.span isAsync) c fun fn c' =>
      Progress L d 5 c₀ [.func fn] c' := by
  refine .expect fun hk => .eating fun isGenerator c₁ he => ?_
  have r₁ := (r.keyword hk).eaten he (TokenKind.punct_ne_eof _)
  exact (Agree.functionName kind r₁).bind fun name c₂ hr₂ => Agree.functionRest h hr₂.1 hkind hr₂.2 isAsync isGenerator

theorem Reads.arrowParams : Reads L d 0 (arrowParams self) (arrowParams self') (List.map Part.param) := by
  intro c hready
  refine .current ?_
  split
  next name hk =>
    have hne := ne_eof hk (TokenKind.ident_ne_eof _)
    have hparam : (Part.param ⟨c.current.span, .ident c.current.span name, none, false⟩).Fits L c c.advance :=
      hready.sound.leaf hne rfl (List.forall_mem_singleton.mpr (hready.sound.bound hk)) (by rintro _ _ ⟨⟩) rfl
        fun _ => rfl
    exact .advance (.pure ((hready.progress (by decide)).one hne hparam).result)
  next => exact Reads.params h hready

theorem Reads.arrowBody : Reads L d 4 (arrowBody self) (arrowBody self') ofBody := by
  intro c hready
  refine .check (.ite (fun _ => ?_) fun _ => ?_)
  · exact (Reads.block h (hready.mono (by decide))).bind fun body c₁ hbody => .pure hbody
  · exact (h.expr hready).bind fun value c₁ hvalue => .pure hvalue

theorem Agree.arrowRest {c₀ c : Cursor} {k : Nat} (r : Progress L d k c₀ [] c) (isAsync : Bool) :
    Agree (arrowRest self c₀.current.span isAsync) (arrowRest self' c₀.current.span isAsync) c fun e c' =>
      Progress L d 5 c₀ [.expr e] c' := by
  refine ((Reads.arrowParams h).from r (Nat.zero_le _)).withRun.bind ?_
  rintro params c₁ ⟨hparams, r₁⟩
  refine .expect fun hk => ?_
  refine ((Reads.arrowBody h).from (r₁.punct hk) (by decide)).bind fun body c₂ r₂ => .spanFrom (.pure ?_)
  have rfn : Progress L d 5 c₀ [.func ⟨c₀.current.span.upTo c₂.previousSpan, .arrow, none, params, body, isAsync, false⟩]
      c₂ := r₂.done rfl rfl rfl rfl ⟨by rintro _ ⟨⟩, fun _ => ⟨rfl, rfl, rest_of_arrowParams hparams⟩⟩
  exact rfn.done rfl rfl rfl rfl trivial

theorem Agree.arrow {c : Cursor} (hready : c.Ready L d 0) {isAsync : Bool}
    (hasync : isAsync = true → c.kind ≠ .eof) : Agree (arrow self isAsync) (arrow self' isAsync) c fun e c' =>
      c.Takes c' ∧ ∀ m ∈ [Part.expr e], m.Fits L c c' := by
  have r := hready.progress (by decide)
  refine .here (.ite (fun hasync' => .advance ?_) fun _ => ?_)
  · exact (Agree.arrowRest h (r.advance (hasync hasync')) isAsync).imp fun _ _ r => r.result
  · exact (Agree.arrowRest h r isAsync).imp fun _ _ r => r.result

/-! ## Literals -/

theorem Reads.element : Reads L d 5 (element self) (element self') fun e => [.expr e] := by
  intro c hready
  refine .here (.eat (fun hk => ?_) fun _ => h.expr (hready.mono (by decide)))
  refine (h.expr.from (hready.begin.punct hk) (by decide)).bind fun operand c₁ r₁ => .spanFrom (.pure ?_)
  exact r₁.finished rfl rfl rfl rfl trivial

/-- The code of a hole is shorter than the literal, and its tokens stand where the literal does. -/
theorem Agree.templateHole {c : Cursor} {lo hi : Nat} {hole : TemplateHole} (hhole : L.Covers lo hi hole.span hole.code)
    (hdepth : 5 * hole.code.length + 4 ≤ d) :
    Agree (templateHole self hole) (templateHole self' hole) c fun e c' =>
      c' = c ∧ (Part.expr e).All (Part.Good L) ∧ lo ≤ e.span.start ∧ e.span.stop ≤ hi := by
  unfold Parser.templateHole
  split
  next => exact .throw (by rintro _ ⟨⟩)
  next tokens hlex =>
    obtain ⟨hweights, hlaid⟩ := Token.laid_of_lexAt hlex hhole.here
    have hsound : Cursor.Sound L { tokens } := ⟨⟨_, _, hlaid⟩, hlaid.length_pos⟩
    have hready : Cursor.Ready L d 4 { tokens } := by
      refine ⟨hsound, Nat.le_trans (Nat.add_le_add_right (Nat.mul_le_mul_left 5 ?_) 4) hdepth⟩
      exact hweights
    refine .get (.set ((h.expr hready).bind fun e c₁ he => .expect fun _ => .set (.pure ⟨rfl, ?_⟩)))
    have hfits := he.2 _ (List.mem_singleton_self _)
    have hstart : hole.span.start = clampOffset hole.span.start := congrArg Span.start hhole.span_eq
    refine ⟨hfits.all, Nat.le_trans ?_ hfits.start, Nat.le_trans hfits.stop ?_⟩
    · have hlo := Cursor.le_start_of_laid (c := { tokens }) hlaid hsound.inside
      rw [← hstart] at hlo
      exact Nat.le_trans hhole.start_le hlo
    · have hhi := Cursor.stop_le_of_laid hlaid he.1
      rw [← hhole.stop_eq] at hhi
      exact Nat.le_trans hhi hhole.le_stop

theorem Agree.templateHoles {c : Cursor} {lo hi : Nat} {holes : List TemplateHole}
    (hholes : ∀ hole ∈ holes, L.Covers lo hi hole.span hole.code) (hdepth : 5 * codeLength holes + 4 ≤ d) :
    Agree (holes.mapM (Parser.templateHole self)) (holes.mapM (Parser.templateHole self')) c fun es c' =>
      c' = c ∧ es.length = holes.length ∧
        ∀ e ∈ es, (Part.expr e).All (Part.Good L) ∧ lo ≤ e.span.start ∧ e.span.stop ≤ hi := by
  induction holes with
  | nil => exact .pure ⟨rfl, rfl, List.forall_mem_nil _⟩
  | cons hole holes ih =>
    rw [codeLength] at hdepth
    obtain ⟨hhole, hholes⟩ := List.forall_mem_cons.mp hholes
    rw [List.mapM_cons, List.mapM_cons]
    refine (Agree.templateHole h hhole (by omega)).bind ?_
    rintro e _ ⟨rfl, he⟩
    refine (ih hholes (by omega)).bind ?_
    rintro es _ ⟨rfl, hlength, hes⟩
    exact .pure ⟨rfl, congrArg (· + 1) hlength, List.forall_mem_cons.mpr ⟨he, hes⟩⟩

theorem Reads.arrayItem : Reads L d 5 (arrayItem self) (arrayItem self') fun e => [.expr e] := by
  intro c hready
  exact .current (.ite (fun _ => .throw_bind (by rintro _ ⟨⟩)) fun _ => Reads.element h hready)

theorem Reads.array : Reads L d 0 (array self) (array self') fun e => [.expr e] := by
  intro c hready
  refine .expect fun hk => ?_
  have r := (hready.progress (by decide)).punct hk
  exact (((Reads.arrayItem h).commaList_map (TokenKind.punct_ne_eof _)).from r (by decide)).bind fun items c₁ r₁ =>
    .spanFrom (.pure (r₁.finished rfl rfl rfl rfl trivial))

theorem Reads.property : Reads L d 5 (property self) (property self') fun p => [.property p] := by
  intro c hready
  refine .here (.eat (fun hk => ?_) fun _ => ?_)
  · refine (h.expr.from (hready.begin.punct hk) (by decide)).bind fun value c₁ r₁ => .spanFrom (.pure ?_)
    exact r₁.finished rfl rfl rfl rfl trivial
  · refine (Agree.propKey h (hready.mono (by decide))).bind ?_
    rintro ⟨key, alone⟩ c₁ ⟨r₁, hkey, halone⟩
    refine .kind ?_
    split
    next hk =>
      refine .advance ((h.expr.from (r₁.punct hk) (by decide)).bind fun value c₂ r₂ => .spanFrom (.pure ?_))
      exact r₂.finished rfl rfl rfl rfl ⟨hkey, by rintro ⟨⟩⟩
    next =>
      have hnone : ∀ x ∈ (none : Option String), IsName x := by rintro _ ⟨⟩
      refine (Agree.functionRest h r₁ FuncKind.expression_ne_arrow hnone false false).bind fun fn c₂ r₂ => ?_
      refine .spanFrom (.pure ?_)
      have r₃ : Progress L d 5 c (ofKey key ++ [.expr (.func (c.current.span.upTo c₂.previousSpan) fn)]) c₂ :=
        r₂.wrap rfl rfl rfl rfl trivial
      exact r₃.finished rfl rfl rfl rfl ⟨hkey, by rintro ⟨⟩⟩
    next =>
      cases alone with
      | none => exact .failExpected
      | some name =>
        obtain ⟨rfl, hk, rfl⟩ := halone name rfl
        have r₂ := r₁.add (hready.sound.ident hk)
        exact .spanFrom (.pure (r₂.finished rfl rfl rfl rfl ⟨hkey, fun _ => ⟨_, name, rfl, rfl⟩⟩))

theorem Reads.object : Reads L d 0 (object self) (object self') fun e => [.expr e] := by
  intro c hready
  refine .expect fun hk => ?_
  have r := (hready.progress (by decide)).punct hk
  exact (((Reads.property h).commaList_map (TokenKind.punct_ne_eof _)).from r (by decide)).bind fun props c₁ r₁ =>
    .spanFrom (.pure (r₁.finished rfl rfl rfl rfl trivial))

/-- A template literal is one token, and its parts are inside. -/
theorem Agree.template {c : Cursor} {parts : TemplateParts} (hready : c.Ready L d 0) (hk : c.kind = .template parts) :
    Agree (parts.holes.mapM (Parser.templateHole self)) (parts.holes.mapM (Parser.templateHole self')) c.advance
      fun es c' => c' = c.advance ∧ (Part.expr (.template c.current.span parts.texts es)).Fits L c c.advance := by
  have hne : c.kind ≠ .eof := ne_eof hk (by rintro ⟨⟩)
  obtain ⟨lo, hi, hplaced⟩ := hready.sound.placed hready.sound.inside
  have hparts := hplaced.parts parts hk
  have hdepth : 5 * codeLength parts.holes + 4 ≤ d := by
    have hweight := hready.sound.codeLength_lt_weight hk
    have hdepth := hready.depth
    omega
  refine (Agree.templateHoles h hparts.holes hdepth).imp ?_
  rintro es _ ⟨rfl, hlength, hes⟩
  have hstop : c.advance.stop = c.current.span.stop := Cursor.stop_advance hne
  have htexts : ∀ m ∈ parts.texts.map Part.text, m.Fits L c c.advance := by
    intro m hm
    obtain ⟨text, htext, rfl⟩ := List.mem_map.mp hm
    obtain ⟨raw, hcovers⟩ := hparts.texts text htext
    have hgood : (Part.text text).Good L :=
      ⟨hcovers.start_le_stop, hcovers.at_start, hcovers.at_stop, List.forall_mem_nil _, by rintro _ _ ⟨⟩, rfl, trivial⟩
    exact ⟨.intro hgood (List.forall_mem_nil _), hcovers.start_le, hstop ▸ hcovers.le_stop⟩
  have hvalues : ∀ m ∈ es.map Part.expr, m.Fits L c c.advance := by
    intro m hm
    obtain ⟨e, he, rfl⟩ := List.mem_map.mp hm
    obtain ⟨hall, hlo, hhi⟩ := hes e he
    exact ⟨hall, hlo, hstop ▸ hhi⟩
  have hcount : parts.texts.length = es.length + 1 := hlength ▸ hparts.count
  exact ⟨rfl, hready.sound.leaf hne rfl (List.forall_mem_append.mpr ⟨htexts, hvalues⟩) (by rintro _ _ ⟨⟩) rfl hcount⟩

theorem Reads.primary : Reads L d 0 (primary self) (primary self') fun e => [.expr e] := by
  intro c hready
  have r := hready.progress (by decide)
  -- A literal is a part of one token.
  have hliteral {e : Expr} (hne : c.kind ≠ .eof) (hspan : e.span = c.current.span) (hchildren : Part.ofExpr e = [])
      (hident : (Part.expr e).isIdent = false) (hspelled : (Part.expr e).Spelled) :
      c.Takes c.advance ∧ ∀ m ∈ [Part.expr e], m.Fits L c c.advance :=
    (r.one hne (hready.sound.token (n := .expr e) hne hspan hchildren hident rfl hspelled)).result
  refine .current ?_
  dsimp only
  split
  next name hk =>
    have hne := ne_eof hk (TokenKind.ident_ne_eof _)
    refine .get (.advance (.ite (fun _ => ?_) fun _ => .pure ?_))
    · refine (Agree.function h (r.advance hne) FuncKind.expression_ne_arrow true).bind fun fn c₁ r₁ => ?_
      exact .spanFrom (.pure (r₁.finished rfl rfl rfl rfl trivial))
    · exact (r.one hne (hready.sound.ident hk)).result
  next hk => exact .advance (.pure (hliteral (ne_eof hk (TokenKind.str_ne_eof _)) rfl rfl rfl trivial))
  next hk => exact .advance (.pure (hliteral (ne_eof hk (by rintro ⟨⟩)) rfl rfl rfl trivial))
  next hk =>
    obtain ⟨_, _, hplaced⟩ := hready.sound.placed hready.sound.inside
    exact .advance (.pure (hliteral (ne_eof hk (by rintro ⟨⟩)) rfl rfl rfl (hplaced.digits _ hk)))
  next hk => exact .advance (.pure (hliteral (ne_eof hk (TokenKind.keyword_ne_eof _)) rfl rfl rfl trivial))
  next hk => exact .advance (.pure (hliteral (ne_eof hk (TokenKind.keyword_ne_eof _)) rfl rfl rfl trivial))
  next hk => exact .advance (.pure (hliteral (ne_eof hk (TokenKind.keyword_ne_eof _)) rfl rfl rfl trivial))
  next hk => exact .advance (.pure (hliteral (ne_eof hk (TokenKind.keyword_ne_eof _)) rfl rfl rfl trivial))
  next parts hk =>
    refine .advance ((Agree.template h hready hk).bind ?_)
    rintro es _ ⟨rfl, hfits⟩
    exact .pure (r.one (ne_eof hk (by rintro ⟨⟩)) hfits).result
  next hk =>
    refine .advance ((h.expr.from (r.punct hk) (by decide)).bind fun inner c₁ r₁ => .expect fun hk₁ => ?_)
    exact .pure (r₁.punct hk₁).result
  next => exact Reads.array h hready
  next => exact Reads.object h hready
  next =>
    refine (Agree.function h r FuncKind.expression_ne_arrow false).bind fun fn c₁ r₁ => .spanFrom (.pure ?_)
    exact r₁.finished rfl rfl rfl rfl trivial
  next => exact .unsupported
  next => exact .throw (by rintro _ ⟨⟩)

/-! ## Links -/

theorem Reads.args : Reads L d 0 (args self) (args self') (List.map Part.expr) := by
  intro c hready
  refine .expect fun hk => ?_
  have r := (hready.progress (by decide)).punct hk
  exact (((Reads.element h).commaList_map (TokenKind.punct_ne_eof _)).from r (by decide)).imp fun _ _ r₁ => r₁.result

omit h in
/-- If `e` was read from `c₀` to `c`, and begins at `start`, then `e'` was read from `c₀` to `c'`. -/
def Continues (L : Locator) (d : Nat) (start : Span) (e : Expr) (c : Cursor) (e' : Expr) (c' : Cursor) : Prop :=
  ∀ c₀, c₀.current.span = start → Progress L d 5 c₀ [.expr e] c → Progress L d 5 c₀ [.expr e'] c'

section

variable {c : Cursor} (hready : c.Ready L d 5) (start : Span) (e : Expr) (optional : Bool)

include hready

theorem Agree.index : Agree (index self start e optional) (index self' start e optional) c fun e' c' =>
    c.Takes c' ∧ Continues L d start e c e' c' := by
  refine .expect fun hk => (h.expr.from (hready.begin.punct hk) (by decide)).bind fun key c₁ q => ?_
  refine .expect fun hk₁ => .spanFrom (.pure ⟨(q.punct hk₁).takes, ?_⟩)
  rintro c₀ rfl r
  exact (r.extend (q.punct hk₁).takes (q.punct hk₁).fits).done rfl rfl rfl rfl trivial

omit h in
theorem Agree.member : Agree (member start e optional) (Parser.member start e optional) c fun e' c' =>
    c.Takes c' ∧ Continues L d start e c e' c' := by
  refine .propertyName_bind hready.sound fun name hword hk =>
    .spanFrom (.pure ⟨hready.sound.takes_advance hk, ?_⟩)
  rintro c₀ rfl r
  exact (r.advance hk).done rfl rfl rfl rfl hword

theorem Agree.call : Agree (call self start e optional) (call self' start e optional) c fun e' c' =>
    c.Takes c' ∧ Continues L d start e c e' c' := by
  refine ((Reads.args h).from hready.begin (by decide)).bind fun args c₁ q => .spanFrom (.pure ⟨q.takes, ?_⟩)
  rintro c₀ rfl r
  exact (r.extend q.takes q.fits).done rfl rfl rfl rfl trivial

omit h in
/-- What follows the first token of a link is the rest of it. -/
theorem Agree.linked {p q : Parser Expr} (hk : c.kind ≠ .eof)
    (hp : Agree p q c.advance fun e' c' => c.advance.Takes c' ∧ Continues L d start e c.advance e' c') :
    Agree (do return some (← p)) (do return some (← q)) c.advance (Linked (Continues L d start e c) c) := by
  refine hp.bind fun e' c' he' => .pure ⟨(hready.sound.takes_advance hk).then he'.1.reaches, ?_⟩
  rintro c₀ hstart r
  exact he'.2 c₀ hstart (r.advance hk)

theorem Agree.link : Agree (link self start e) (link self' start e) c (Linked (Continues L d start e c) c) := by
  refine .current ?_
  split
  next hk =>
    have hne := ne_eof hk (TokenKind.punct_ne_eof _)
    exact .advance (.linked hready start e hne (Agree.member (hready.advance hne) start e false))
  next hk =>
    have hne := ne_eof hk (TokenKind.punct_ne_eof _)
    refine .advance (.kind ?_)
    split
    next => exact .linked hready start e hne (Agree.call h (hready.advance hne) start e true)
    next => exact .linked hready start e hne (Agree.index h (hready.advance hne) start e true)
    next => exact .linked hready start e hne (Agree.member (hready.advance hne) start e true)
  next => exact (Agree.index h hready start e false).bind fun e' c' he' => .pure he'
  next => exact (Agree.call h hready start e false).bind fun e' c' he' => .pure he'
  next => exact .unsupported
  next => exact .ite (fun _ => .pure rfl) fun _ => .unsupported
  next => exact .ite (fun _ => .pure rfl) fun _ => .unsupported
  next => exact .pure rfl

theorem Agree.constructLink : Agree (constructLink self start e) (constructLink self' start e) c
    (Linked (Continues L d start e c) c) := by
  refine .kind ?_
  split
  next hk =>
    have hne := ne_eof hk (TokenKind.punct_ne_eof _)
    exact .advance (.linked hready start e hne (Agree.member (hready.advance hne) start e false))
  next => exact (Agree.index h hready start e false).bind fun e' c' he' => .pure he'
  next => exact .pure rfl

end

omit h in
/-- An expression is extended link by link. -/
theorem Agree.links {c₀ c : Cursor} {e : Expr} {link link' : Expr → Parser (Option Expr)}
    (hlink : ∀ e c, c.Ready L d 5 → Agree (link e) (link' e) c (Linked (Continues L d c₀.current.span e c) c))
    (r : Progress L d 5 c₀ [.expr e] c) :
    Agree (Parser.chain link e) (Parser.chain link' e) c fun e c => Progress L d 5 c₀ [.expr e] c := by
  refine .chain (fun e c r => (hlink e c r.ready).imp ?_) r
  rintro (_ | e') c' he'
  · exact he'
  · exact ⟨he'.1, he'.2 c₀ rfl r⟩

theorem Reads.constructOrPrimary :
    Reads L d 1 (constructOrPrimary self) (constructOrPrimary self') fun e => [.expr e] := by
  intro c hready
  exact .check (.ite (fun _ => h.construct hready) fun _ => Reads.primary h (hready.mono (by decide)))

theorem MayRead.constructArgs : MayRead L d (constructArgs self) (constructArgs self') (List.map Part.expr) := by
  intro c hready
  refine .check (.ite (fun _ => ?_) fun _ => .pure ⟨.refl hready.sound, List.forall_mem_nil _⟩)
  exact (Reads.args h (hready.mono (by decide))).imp fun _ _ hargs => ⟨hargs.1.reaches, hargs.2⟩

theorem Reads.construct : Reads L d 0 (construct self) (construct self') fun e => [.expr e] := by
  intro c hready
  refine .expect fun hk => .here ?_
  have r := (hready.progress (by decide)).keyword hk
  refine ((Reads.constructOrPrimary h).from r.ready.begin (by decide)).bind fun e c₁ q₁ => ?_
  refine (Agree.links (fun e _ hready => Agree.constructLink h hready _ e) q₁).bind fun callee c₂ q₂ => ?_
  refine ((MayRead.constructArgs h).from (r.extend q₂.takes q₂.fits)).bind fun args c₃ r₃ => .spanFrom (.pure ?_)
  exact r₃.finished rfl rfl rfl rfl trivial

theorem Reads.postfixed : Reads L d 1 (postfixed self) (postfixed self') fun e => [.expr e] := by
  intro c hready
  refine .here (((Reads.constructOrPrimary h).from (hready.progress (by decide)) (by decide)).bind fun e c₁ r₁ => ?_)
  exact (Agree.links (fun e _ hready => Agree.link h hready _ e) r₁).imp fun _ _ r => r.result

/-! ## Operators -/

omit h in
theorem ne_eof_of_unaryOp? {op : UnaryOp} (hop : unaryOp? k = some op) : k ≠ .eof := by
  rintro rfl
  cases hop

omit h in
theorem ne_eof_of_binaryOp? {op : BinaryOp} (hop : binaryOp? k = some op) : k ≠ .eof := by
  rintro rfl
  cases hop

omit h in
theorem ne_eof_of_assignOp? {op : AssignOp} (hop : assignOp? k = some op) : k ≠ .eof := by
  rintro rfl
  cases hop

theorem Reads.unary : Reads L d 1 (unary self) (unary self') fun e => [.expr e] := by
  intro c hready
  refine .current ?_
  split
  next => exact .unsupported
  next => exact .unsupported
  next =>
    split
    next => exact Reads.postfixed h hready
    next op hop =>
      have r := (hready.progress (by decide)).advance (ne_eof_of_unaryOp? hop)
      refine .advance ((h.unary.from r (by decide)).bind fun operand c₁ r₁ => .spanFrom (.pure ?_))
      exact r₁.finished rfl rfl rfl rfl trivial

theorem Agree.binaryLink {c : Cursor} (hready : c.Ready L d 5) (tightness : Nat) (start : Span) (left : Expr) :
    Agree (binaryLink self tightness start left) (binaryLink self' tightness start left) c
      (Linked (Continues L d start left c) c) := by
  refine .kind ?_
  split
  next => exact .pure rfl
  next op hop =>
    have q := hready.begin.advance (ne_eof_of_binaryOp? hop)
    refine .ite (fun _ => .pure rfl) fun _ => .advance (((h.binary _).from q (by decide)).bind fun right c₁ q₁ => ?_)
    refine .spanFrom (.pure ⟨q₁.takes, ?_⟩)
    rintro c₀ rfl r
    exact (r.extend q₁.takes q₁.fits).done rfl rfl rfl rfl trivial

theorem Reads.binary (tightness : Nat) :
    Reads L d 2 (binary self tightness) (binary self' tightness) fun e => [.expr e] := by
  intro c hready
  refine .here ((h.unary.from (hready.progress (by decide)) (by decide)).bind fun e c₁ r₁ => ?_)
  exact (Agree.links (fun e _ hready => Agree.binaryLink h hready tightness _ e) r₁).imp fun _ _ r => r.result

theorem Reads.conditional : Reads L d 3 (conditional self) (conditional self') fun e => [.expr e] := by
  intro c hready
  refine .here (((h.binary 0).from (hready.progress (by decide)) (by decide)).bind fun cond c₁ r₁ => ?_)
  refine .eat (fun hk => ?_) fun _ => .pure r₁.result
  refine (h.expr.from (r₁.punct hk) (by decide)).bind fun thenExpr c₂ r₂ => .expect fun hk₂ => ?_
  refine (h.expr.from (r₂.punct hk₂) (by decide)).bind fun elseExpr c₃ r₃ => .spanFrom (.pure ?_)
  exact r₃.finished rfl rfl rfl rfl trivial

omit h in
/-- An arrow function marked as asynchronous begins with the mark. -/
theorem kind_of_arrowAhead {c : Cursor} (hahead : arrowAhead c = some true) : c.kind = .ident "async" := by
  cases hasync : c.kind == .ident "async" with
  | true => exact beq_iff_eq.mp hasync
  | false =>
    unfold arrowAhead at hahead
    simp only [hasync, Bool.false_and] at hahead
    split at hahead <;>
    · obtain ⟨_, -, hahead⟩ := Option.bind_eq_some_iff.mp hahead
      split at hahead <;> cases hahead

theorem Reads.expr : Reads L d 3 (expr self) (expr self') fun e => [.expr e] := by
  intro c hready
  refine .get ?_
  cases hahead : arrowAhead c with
  | some isAsync =>
    refine Agree.arrow h (hready.mono (by decide)) ?_
    rintro rfl
    exact ne_eof (kind_of_arrowAhead hahead) (TokenKind.ident_ne_eof _)
  | none =>
    refine .here (((Reads.conditional h).from (hready.progress (by decide)) (by decide)).bind fun target c₁ r₁ => ?_)
    refine .kind ?_
    split
    next => exact .pure r₁.result
    next op hop =>
      refine .ite (fun _ => .throw_bind (by rintro _ ⟨⟩)) fun hassignable => .advance ?_
      rw [Bool.not_eq_true, Bool.not_eq_false'] at hassignable
      have r₂ := r₁.advance (ne_eof_of_assignOp? hop)
      refine (h.expr.from r₂ (by decide)).bind fun value c₂ r₂ => .spanFrom (.pure ?_)
      exact r₂.finished rfl rfl rfl rfl hassignable

end Parser

end MatchChain
