import MatchChain.Proofs.Syntax.Agree
import MatchChain.Proofs.Syntax.Parts

/-!
# Parts where they were read

A part that was read from one cursor to another fits between them: its span lies between the start of
the first token and the end of the last one, and inside it every part lies in its parent and is made of
names that are spelled like names. `Progress` follows a production through its tokens. It knows the cursor
where the production began, the parts that were read since, and that there is depth left for whatever
comes next.
-/

set_option autoImplicit false

namespace MatchChain

variable {stop : Cursor → Bool} {n : Part} {close : TokenKind} {ms' : List Part}

/-- Whether an element takes the rest of an array. -/
def BindingElem.isRest : BindingElem → Bool
  | rest _ => true
  | _ => false

namespace BindingProp

/-- Whether a property takes the rest of an object. -/
def isRest : BindingProp → Bool
  | rest .. => true
  | _ => false

/-- A key is spelled like a word, and a property that stands alone binds the name that is its key. -/
def Spelled : BindingProp → Prop
  | item key value _ shorthand => (∀ name, key = .ident name → IsWord name) ∧
      (shorthand = true → ∃ span name, key = .ident name ∧ value = .ident span name)
  | rest .. => True

end BindingProp

namespace Part

/-- What reading guarantees of a part itself: its names and labels are spelled like names, the digits of a number
    mean nothing to the scan of a template literal, which has a text around every hole, a property that stands alone
    has the name it reads as its key, an assignment has a target that can be assigned to, only the last part of a
    pattern takes the rest of a value, and a parameter that takes the rest of the arguments has no default and is,
    in an arrow function, the last. -/
def Spelled : Part → Prop
  | expr (.ident _ name) | binding (.ident _ name) => IsName name
  | stmt (.labeled _ label _) => IsName label
  | stmt (.breakTo _ label) | stmt (.continueTo _ label) => ∀ name ∈ label, IsName name
  | expr (.bigint _ digits) => ∀ c ∈ digits.toList, RawTemplate.isIdle c = true
  | expr (.template _ texts holes) => texts.length = holes.length + 1
  | expr (.assign _ _ target _) => Parser.isAssignable target = true
  | expr (.member _ _ name _) => IsWord name
  | property (.init _ key value shorthand) => (∀ name, key = .ident name → IsWord name) ∧
      (shorthand = true → ∃ span name, key = .ident name ∧ value = .ident span name)
  | binding (.array _ elems) => ∀ e ∈ elems.dropLast, e.isRest = false
  | binding (.object _ props) => (∀ p ∈ props, p.Spelled) ∧ ∀ p ∈ props.dropLast, p.isRest = false
  | param p => p.rest = true → p.default = none
  | func fn => (∀ name ∈ fn.name, IsName name) ∧ (fn.kind = .arrow →
      fn.name = none ∧ fn.isGenerator = false ∧ ∀ p ∈ fn.params.dropLast, p.rest = false)
  | _ => True

/-- What holds of a part that was read: its ends are in order and known, its children lie in it, an
    identifier is what the text says, no `else` is taken by another `if`, and it is spelled as it should be. -/
structure Good (L : Locator) (n : Part) : Prop where
  ordered : n.span.start ≤ n.span.stop
  start : L.At n.span.start []
  stop : L.At n.span.stop []
  children : ∀ m ∈ n.children, n.span.start ≤ m.span.start ∧ m.span.stop ≤ n.span.stop
  named : ∀ span name, n = .expr (.ident span name) → L.Covers span.start span.stop span name.toList
  attached : n.isDangling = false
  spelled : n.Spelled

/-- The part was read between two cursors. -/
structure Fits (L : Locator) (c c' : Cursor) (n : Part) : Prop where
  all : n.All (Good L)
  start : c.start ≤ n.span.start
  stop : n.span.stop ≤ c'.stop

theorem Fits.widen {L : Locator} {c c₁ c₂ c' : Cursor} (h : n.Fits L c₁ c₂) (h₁ : c.start ≤ c₁.start)
    (h₂ : c₂.stop ≤ c'.stop) : n.Fits L c c' :=
  ⟨h.all, Nat.le_trans h₁ h.start, Nat.le_trans h.stop h₂⟩

/-- Whether the part is an identifier in an expression. -/
def isIdent : Part → Bool
  | .expr (.ident ..) => true
  | _ => false

end Part

namespace Cursor

variable {L : Locator} {d k : Nat} {c₀ c c' : Cursor} {n : Part} {ms : List Part}

/-- There is depth to read a symbol of rank `k` from here. -/
structure Ready (L : Locator) (d k : Nat) (c : Cursor) : Prop where
  sound : c.Sound L
  depth : 5 * c.weight + k ≤ d

/-- The parts `ms` were read from `c₀` to `c`, and there is depth to go on with a symbol of rank `k`. The
    rank is 5 as soon as a token was taken: that is all that any symbol needs. -/
structure Progress (L : Locator) (d k : Nat) (c₀ : Cursor) (ms : List Part) (c : Cursor) : Prop where
  sound : c₀.Sound L
  reaches : c₀.Reaches c
  depth : 5 * c.weight + k ≤ d
  taken : k = 5 → c₀.Takes c
  fits : ∀ m ∈ ms, m.Fits L c₀ c

theorem Ready.mono {k' : Nat} (h : Ready L d k c) (hk : k' ≤ k) : Ready L d k' c :=
  ⟨h.sound, Nat.le_trans (Nat.add_le_add_left hk _) h.depth⟩

theorem Ready.progress (h : Ready L d k c) (hk : k < 5) : Progress L d k c [] c where
  sound := h.sound
  reaches := .refl h.sound
  depth := h.depth
  taken heq := absurd heq (Nat.ne_of_lt hk)
  fits := List.forall_mem_nil _

theorem Ready.advance (h : Ready L d k c) (hkind : c.kind ≠ .eof) : Ready L d k c.advance := by
  have hweight := h.sound.weight_lt (h.sound.takes_advance hkind)
  have hdepth := h.depth
  exact ⟨h.sound.takes (h.sound.takes_advance hkind), by omega⟩

theorem Ready.begin (h : Ready L d 5 c) : Progress L d 4 c [] c := (h.mono (by decide)).progress (by decide)

namespace Progress

theorem ready (r : Progress L d k c₀ ms c) : Ready L d k c := ⟨r.sound.reaches r.reaches, r.depth⟩

theorem takes (r : Progress L d 5 c₀ ms c) : c₀.Takes c := r.taken rfl

/-- What has been read, as the result of a production. -/
theorem result (r : Progress L d 5 c₀ ms c) : c₀.Takes c ∧ ∀ m ∈ ms, m.Fits L c₀ c := ⟨r.takes, r.fits⟩

/-- More parts, with a token at least. -/
theorem extend (r : Progress L d k c₀ ms c) (htakes : c.Takes c')
    (hfits : ∀ m ∈ ms', m.Fits L c c') : Progress L d 5 c₀ (ms ++ ms') c' where
  sound := r.sound
  reaches := r.reaches.trans htakes.reaches
  depth := by
    have hweight := r.ready.sound.weight_lt htakes
    have hdepth := r.depth
    omega
  taken _ := r.reaches.takes htakes
  fits m hm := by
    rcases List.mem_append.mp hm with hm | hm
    · exact (r.fits m hm).widen (Nat.le_refl _) (r.ready.sound.stop_mono htakes.reaches)
    · exact (hfits m hm).widen (r.sound.start_le_start r.reaches) (Nat.le_refl _)

/-- More parts, possibly without a token. -/
theorem extend' (r : Progress L d 5 c₀ ms c) (hreaches : c.Reaches c')
    (hfits : ∀ m ∈ ms', m.Fits L c c') : Progress L d 5 c₀ (ms ++ ms') c' where
  sound := r.sound
  reaches := r.reaches.trans hreaches
  depth := by
    have hweight := r.ready.sound.weight_le hreaches
    have hdepth := r.depth
    omega
  taken _ := r.takes.then hreaches
  fits m hm := by
    rcases List.mem_append.mp hm with hm | hm
    · exact (r.fits m hm).widen (Nat.le_refl _) (r.ready.sound.stop_mono hreaches)
    · exact (hfits m hm).widen (r.sound.start_le_start r.reaches) (Nat.le_refl _)

theorem advance (r : Progress L d k c₀ ms c) (hkind : c.kind ≠ .eof) : Progress L d 5 c₀ ms c.advance := by
  have h : Progress L d 5 c₀ (ms ++ []) c.advance :=
    r.extend (r.ready.sound.takes_advance hkind) (List.forall_mem_nil _)
  rwa [List.append_nil] at h

theorem punct {p : Punct} (r : Progress L d k c₀ ms c) (hk : c.kind = .punct p) : Progress L d 5 c₀ ms c.advance :=
  r.advance (Parser.ne_eof hk (TokenKind.punct_ne_eof p))

theorem keyword {word : Keyword} (r : Progress L d k c₀ ms c) (hk : c.kind = .keyword word) :
    Progress L d 5 c₀ ms c.advance :=
  r.advance (Parser.ne_eof hk (TokenKind.keyword_ne_eof word))

theorem reach (r : Progress L d 5 c₀ ms c) (hreaches : c.Reaches c') : Progress L d 5 c₀ ms c' := by
  have h : Progress L d 5 c₀ (ms ++ []) c' := r.extend' hreaches (List.forall_mem_nil _)
  rwa [List.append_nil] at h

theorem eaten {kind : TokenKind} {b : Bool} (r : Progress L d 5 c₀ ms c) (h : Parser.Agree.Eaten kind c b c')
    (hkind : kind ≠ .eof) : Progress L d 5 c₀ ms c' := by
  cases h with
  | yes hk => exact r.advance (Parser.ne_eof hk hkind)
  | no => exact r

/-- A part that lies in what was read already. -/
theorem add (r : Progress L d k c₀ ms c) (hn : n.Fits L c₀ c) : Progress L d k c₀ (ms ++ [n]) c :=
  { r with fits := List.forall_mem_append.mpr ⟨r.fits, List.forall_mem_singleton.mpr hn⟩ }

/-- A part from the beginning to here holds what was read last. -/
theorem wrap (r : Progress L d 5 c₀ (ms ++ ms') c)
    (hspan : n.span = c₀.current.span.upTo c.previousSpan) (hchildren : n.children = ms')
    (hident : n.isIdent = false) (hattached : n.isDangling = false) (hspelled : n.Spelled) :
    Progress L d 5 c₀ (ms ++ [n]) c := by
  have hstart : n.span.start = c₀.start := by rw [hspan]; rfl
  have hstop : n.span.stop = c.stop := by rw [hspan]; rfl
  obtain ⟨hfits, hfits'⟩ := List.forall_mem_append.mp r.fits
  have hgood : n.Good L := {
    ordered := by rw [hstart, hstop]; exact r.sound.start_le_stop_of_takes r.takes
    start := by rw [hstart]; exact r.sound.at_start
    stop := by rw [hstop]; exact r.sound.at_stop r.takes
    children := by
      intro m hm
      have hm := hfits' m (hchildren ▸ hm)
      rw [hstart, hstop]
      exact ⟨hm.start, hm.stop⟩
    named := by
      rintro span name rfl
      cases hident
    attached := hattached
    spelled := hspelled }
  have hall : n.All (Part.Good L) := by
    refine .intro hgood fun m hm => ?_
    exact (hfits' m (hchildren ▸ hm)).all
  have hn : n.Fits L c₀ c := ⟨hall, Nat.le_of_eq hstart.symm, Nat.le_of_eq hstop⟩
  exact { r with fits := List.forall_mem_append.mpr ⟨hfits, List.forall_mem_singleton.mpr hn⟩ }

/-- The production ends with a part that holds all that was read. -/
theorem done (r : Progress L d 5 c₀ ms c) (hspan : n.span = c₀.current.span.upTo c.previousSpan)
    (hchildren : n.children = ms) (hident : n.isIdent = false) (hattached : n.isDangling = false)
    (hspelled : n.Spelled) : Progress L d 5 c₀ [n] c := by
  have r' : Progress L d 5 c₀ ([] ++ ms) c := r
  exact r'.wrap hspan hchildren hident hattached hspelled

/-- The production ends with such a part as its result. -/
theorem finished (r : Progress L d 5 c₀ ms c) (hspan : n.span = c₀.current.span.upTo c.previousSpan)
    (hchildren : n.children = ms) (hident : n.isIdent = false) (hattached : n.isDangling = false)
    (hspelled : n.Spelled) : c₀.Takes c ∧ ∀ m ∈ [n], m.Fits L c₀ c :=
  (r.done hspan hchildren hident hattached hspelled).result

end Progress

/-- A part that is one token. -/
theorem Sound.leaf (h : Sound L c) (hkind : c.kind ≠ .eof) (hspan : n.span = c.current.span)
    (hchildren : ∀ m ∈ n.children, m.Fits L c c.advance)
    (hnamed : ∀ span name, n = .expr (.ident span name) → c.kind = .ident name) (hattached : n.isDangling = false)
    (hspelled : n.Spelled) : n.Fits L c c.advance := by
  obtain ⟨lo, hi, hplaced⟩ := h.placed h.inside
  obtain ⟨text, hcovers, hname⟩ := hplaced.covers
  have hstop : c.advance.stop = n.span.stop := by rw [stop_advance hkind, hspan]
  have hstart : c.start = n.span.start := by rw [hspan]; rfl
  have hgood : n.Good L := {
    ordered := by rw [hspan]; exact hcovers.start_le_stop
    start := by rw [hspan]; exact hcovers.at_start
    stop := by rw [hspan]; exact hcovers.at_stop
    children := by
      intro m hm
      have hfits := hchildren m hm
      rw [← hstart, ← hstop]
      exact ⟨hfits.start, hfits.stop⟩
    named := by
      rintro span name rfl
      obtain rfl : span = c.current.span := hspan
      have htext := hname name (hnamed _ _ rfl)
      rw [← htext]
      exact { hcovers with start_le := Nat.le_refl _, le_stop := Nat.le_refl _ }
    attached := hattached
    spelled := hspelled }
  exact ⟨.intro hgood fun m hm => (hchildren m hm).all, Nat.le_of_eq hstart, Nat.le_of_eq hstop.symm⟩

/-- A part that is one token and holds no other part. -/
theorem Sound.token (h : Sound L c) (hkind : c.kind ≠ .eof) (hspan : n.span = c.current.span)
    (hchildren : n.children = []) (hident : n.isIdent = false) (hattached : n.isDangling = false)
    (hspelled : n.Spelled) : n.Fits L c c.advance := by
  refine h.leaf hkind hspan ?_ ?_ hattached hspelled
  · rw [hchildren]
    exact List.forall_mem_nil _
  · rintro span name rfl
    cases hident

/-- A name in an expression. -/
theorem Sound.ident {name : String} (h : Sound L c) (hk : c.kind = .ident name) :
    (Part.expr (.ident c.current.span name)).Fits L c c.advance := by
  refine h.leaf (Parser.ne_eof hk (TokenKind.ident_ne_eof _)) rfl (List.forall_mem_nil _) ?_ rfl (h.isName hk)
  rintro _ _ ⟨⟩
  exact hk

/-- A name that is bound. -/
theorem Sound.bound {name : String} (h : Sound L c) (hk : c.kind = .ident name) :
    (Part.binding (.ident c.current.span name)).Fits L c c.advance :=
  h.token (Parser.ne_eof hk (TokenKind.ident_ne_eof _)) rfl rfl rfl rfl (h.isName hk)

/-- One more part, which is one token. -/
theorem Progress.one (r : Progress L d k c₀ ms c) (hkind : c.kind ≠ .eof) (hn : n.Fits L c c.advance) :
    Progress L d 5 c₀ (ms ++ [n]) c.advance :=
  r.extend (r.ready.sound.takes_advance hkind) (List.forall_mem_singleton.mpr hn)

end Cursor

namespace Parser

open Cursor (Ready Progress)

variable {α β : Type} {L : Locator} {d k : Nat} {c₀ c c' : Cursor} {ms : List Part}

/-! ## Contracts -/

/-- Both parsers read the same, and take a token at least; `parts` of it fit where they were read. -/
def Reads (L : Locator) (d k : Nat) (p q : Parser α) (parts : α → List Part) : Prop :=
  ∀ ⦃c⦄, c.Ready L d k → Agree p q c fun a c' => c.Takes c' ∧ ∀ m ∈ parts a, m.Fits L c c'

/-- Both parsers read the same, possibly nothing. -/
def MayRead (L : Locator) (d : Nat) (p q : Parser α) (parts : α → List Part) : Prop :=
  ∀ ⦃c⦄, c.Ready L d 5 → Agree p q c fun a c' => c.Reaches c' ∧ ∀ m ∈ parts a, m.Fits L c c'

section

variable {p q : Parser α} {parts : α → List Part}

theorem Reads.from {k' : Nat} (h : Reads L d k p q parts) (r : Progress L d k' c₀ ms c) (hk : k ≤ k') :
    Agree p q c fun a c' => Progress L d 5 c₀ (ms ++ parts a) c' :=
  (h (r.ready.mono hk)).imp fun _ _ h => r.extend h.1 h.2

theorem MayRead.from (h : MayRead L d p q parts) (r : Progress L d 5 c₀ ms c) :
    Agree p q c fun a c' => Progress L d 5 c₀ (ms ++ parts a) c' :=
  (h r.ready).imp fun _ _ h => r.extend' h.1 h.2

/-! ## Loops -/

theorem bind_eq_ok {p : Parser α} {f : α → Parser β} {b : β} (h : (p >>= f) c = .ok (b, c')) :
    ∃ a c₁, p c = .ok (a, c₁) ∧ f a c₁ = .ok (b, c') := by
  change (p c >>= fun r => f r.1 r.2) = .ok (b, c') at h
  cases hp : p c with
  | error e =>
    rw [hp] at h
    cases h
  | ok r =>
    rw [hp] at h
    exact ⟨r.1, r.2, rfl, h⟩

theorem kind_of_eat {k : TokenKind} (h : eat k c = .ok (true, c')) : c.kind = k := by
  obtain ⟨_, _, hget, h⟩ := bind_eq_ok h
  cases hget
  split at h
  next hk => exact eq_of_beq hk
  next => cases h

theorem eq_of_eat {k : TokenKind} (h : eat k c = .ok (false, c')) : c' = c := by
  obtain ⟨_, _, hget, h⟩ := bind_eq_ok h
  cases hget
  split at h
  next => cases h
  next =>
    cases h
    rfl

/-- What an item says of itself and of whether another may follow, all items say, and all but the last say it of
    an item before another. -/
theorem forall_of_collectFor {item : Parser (α × Bool)} {I : Cursor → Prop}
    {N : α → Bool → Prop} (hitem : ∀ ⦃c x more c'⦄, I c → item c = .ok ((x, more), c') → N x more ∧ I c') {n : Nat}
    {found xs : List α} (hc : I c) (hfound : ∀ x ∈ found, N x true)
    (h : collectFor stop item n found c = .ok (xs, c')) :
    (∀ x ∈ xs, ∃ more, N x more) ∧ ∀ x ∈ xs.dropLast, N x true := by
  induction n generalizing found c with
  | zero =>
    obtain ⟨_, _, -, h⟩ := bind_eq_ok h
    cases h
  | succ n ih =>
    obtain ⟨_, _, hget, h⟩ := bind_eq_ok h
    cases hget
    split at h
    · cases h
      exact ⟨fun x hx => ⟨true, hfound x (List.mem_reverse.mp hx)⟩,
        fun x hx => hfound x (List.mem_reverse.mp (List.dropLast_subset _ hx))⟩
    · obtain ⟨⟨x, more⟩, c₁, hrun, h⟩ := bind_eq_ok h
      obtain ⟨hx, hc₁⟩ := hitem hc hrun
      cases more with
      | true => exact ih hc₁ (List.forall_mem_cons.mpr ⟨hx, hfound⟩) h
      | false =>
        cases h
        rw [List.reverse_cons, List.dropLast_concat]
        refine ⟨fun y hy => ?_, fun y hy => hfound y (List.mem_reverse.mp hy)⟩
        rcases List.mem_append.mp hy with hy | hy
        · exact ⟨true, hfound y (List.mem_reverse.mp hy)⟩
        · exact ⟨false, List.mem_singleton.mp hy ▸ hx⟩

/-- What holds of an item before a comma holds of all items but the last. -/
theorem forall_dropLast_of_commaList {item : Parser α} {N : α → Prop}
    (hitem : ∀ ⦃c x c'⦄, item c = .ok (x, c') → c'.kind = .punct .comma → N x) {xs : List α}
    (h : commaList close item c = .ok (xs, c')) : ∀ x ∈ xs.dropLast, N x := by
  obtain ⟨items, c₁, hitems, h⟩ := bind_eq_ok h
  obtain ⟨_, _, -, h⟩ := bind_eq_ok h
  cases h
  obtain ⟨_, _, hget, hitems⟩ := bind_eq_ok hitems
  cases hget
  have hround : ∀ ⦃c x more c'⦄, True → itemOf item c = .ok ((x, more), c') → (more = true → N x) ∧ True := by
    intro c x more c' _ hx
    obtain ⟨_, c₂, hitem', hx⟩ := bind_eq_ok hx
    obtain ⟨_, _, hmore, hx⟩ := bind_eq_ok hx
    cases hx
    exact ⟨by rintro rfl; exact hitem hitem' (kind_of_eat hmore), trivial⟩
  exact fun x hx => (forall_of_collectFor hround trivial (List.forall_mem_nil _) hitems).2 x hx rfl

theorem remaining_lt (h : c.Takes c') : c'.remaining < c.remaining := by
  have hpos := h.pos
  have hinside := h.inside
  have hsize : c'.tokens.size = c.tokens.size := congrArg Array.size h.tokens
  unfold Cursor.remaining
  omega

/-- Every round of the loop takes a token, so that the rounds suffice. -/
theorem Agree.collectFor {item item' : Parser (α × Bool)} {n : Nat} {found : List α}
    {c₁ : Cursor} (hitem : Reads L d 5 item item' fun r => parts r.1) (hsound : c.Sound L) (hreaches : c.Reaches c₁)
    (hready : c₁.Ready L d 5) (hfits : ∀ m ∈ found.flatMap parts, m.Fits L c c₁) (hn : c₁.remaining < n) :
    Agree (collectFor stop item n found) (collectFor stop item' n found) c₁ fun xs c' =>
      c.Reaches c' ∧ ∀ m ∈ xs.flatMap parts, m.Fits L c c' := by
  -- What is found is kept in reverse, which makes no difference to its parts.
  have hreverse {xs : List α} {c' : Cursor} (h : ∀ m ∈ xs.flatMap parts, m.Fits L c c') :
      ∀ m ∈ xs.reverse.flatMap parts, m.Fits L c c' := by
    intro m hm
    obtain ⟨x, hx, hm⟩ := List.mem_flatMap.mp hm
    exact h m (List.mem_flatMap.mpr ⟨x, List.mem_reverse.mp hx, hm⟩)
  induction n generalizing found c₁ with
  | zero => exact absurd hn (Nat.not_lt_zero _)
  | succ n ih =>
    refine get (ite (fun _ => pure ⟨hreaches, hreverse hfits⟩) fun _ => (hitem hready).bind ?_)
    rintro ⟨x, more⟩ c₂ ⟨htakes, hx⟩
    have hreaches₂ := hreaches.trans htakes.reaches
    have hfits₂ : ∀ m ∈ (x :: found).flatMap parts, m.Fits L c c₂ := by
      intro m hm
      rw [List.flatMap_cons] at hm
      rcases List.mem_append.mp hm with hm | hm
      · exact (hx m hm).widen (hsound.start_le_start hreaches) (Nat.le_refl _)
      · exact (hfits m hm).widen (Nat.le_refl _) (hready.sound.stop_mono htakes.reaches)
    refine ite (fun _ => ih hreaches₂ ?_ hfits₂ ?_) fun _ => pure ⟨hreaches₂, hreverse hfits₂⟩
    · have hweight := hready.sound.weight_lt htakes
      have hdepth := hready.depth
      exact ⟨hready.sound.takes htakes, by omega⟩
    · have := remaining_lt htakes
      omega

theorem MayRead.collect {item item' : Parser (α × Bool)}
    (hitem : Reads L d 5 item item' fun r => parts r.1) :
    MayRead L d (collect stop item) (collect stop item') fun xs => xs.flatMap parts := by
  intro c hready
  refine .get (.collectFor hitem hready.sound (.refl hready.sound) hready ?_ (Nat.lt_succ_self _))
  exact List.forall_mem_nil _

/-- An item and the comma after it. -/
theorem Reads.round {item item' : Parser α} (hitem : Reads L d 5 item item' parts) :
    Reads L d 5 (itemOf item) (itemOf item') fun r => parts r.1 := by
  intro c hready
  refine (hitem hready).bind fun x c₁ hx => .eating fun more c₂ he => .pure ?_
  have r := hready.begin.extend hx.1 hx.2
  exact (r.eaten he (TokenKind.punct_ne_eof _)).result

/-- A list of items ends with its closing token, if not before. -/
theorem Reads.commaList {item item' : Parser α} (hclose : close ≠ .eof)
    (hitem : Reads L d 5 item item' parts) :
    Reads L d 5 (commaList close item) (commaList close item') fun xs => xs.flatMap parts := by
  intro c hready
  refine (MayRead.collect hitem.round hready).bind fun xs c₁ hxs => .expect fun hk => .pure ?_
  have hsound := hready.sound.reaches hxs.1
  have hnext := hsound.takes_advance (hk ▸ hclose)
  exact ⟨hxs.1.takes hnext, fun m hm => (hxs.2 m hm).widen (Nat.le_refl _) (hsound.stop_mono hnext.reaches)⟩

theorem MayRead.collect_map {item item' : Parser (α × Bool)} {f : α → Part}
    (hitem : Reads L d 5 item item' fun r => [f r.1]) :
    MayRead L d (Parser.collect stop item) (Parser.collect stop item') (List.map f) := by
  have h : MayRead L d (Parser.collect stop item) (Parser.collect stop item') fun xs => xs.flatMap fun x => [f x] :=
    .collect hitem
  have heq (xs : List α) : xs.flatMap (fun x => [f x]) = xs.map f := List.map_eq_flatMap.symm
  simpa only [heq] using h

theorem Reads.commaList_map {item item' : Parser α} {f : α → Part} (hclose : close ≠ .eof)
    (hitem : Reads L d 5 item item' fun x => [f x]) :
    Reads L d 5 (Parser.commaList close item) (Parser.commaList close item') (List.map f) := by
  have h := hitem.commaList hclose
  have heq (xs : List α) : xs.flatMap (fun x => [f x]) = xs.map f := List.map_eq_flatMap.symm
  simpa only [heq] using h

/-- What a link returns: a longer value and a token less, or nothing. -/
def Linked (I : α → Cursor → Prop) (c : Cursor) : Option α → Cursor → Prop
  | some y, c' => c.Takes c' ∧ I y c'
  | none, c' => c' = c

theorem Agree.chainFor {link link' : α → Parser (Option α)} {I : α → Cursor → Prop} {n : Nat} {x : α}
    (hlink : ∀ x c, I x c → Agree (link x) (link' x) c (Linked I c)) (hx : I x c) (hn : c.remaining < n) :
    Agree (chainFor link n x) (chainFor link' n x) c I := by
  induction n generalizing x c with
  | zero => exact absurd hn (Nat.not_lt_zero _)
  | succ n ih =>
    refine (hlink x c hx).bind ?_
    rintro (_ | y) c₁ hlinked
    · obtain rfl : c₁ = c := hlinked
      exact pure hx
    · refine ih hlinked.2 ?_
      have := remaining_lt hlinked.1
      omega

theorem Agree.chain {link link' : α → Parser (Option α)} {I : α → Cursor → Prop} {x : α}
    (hlink : ∀ x c, I x c → Agree (link x) (link' x) c (Linked I c)) (hx : I x c) :
    Agree (chain link x) (chain link' x) c I :=
  get (.chainFor hlink hx (Nat.lt_succ_self _))

end

end Parser

end MatchChain
