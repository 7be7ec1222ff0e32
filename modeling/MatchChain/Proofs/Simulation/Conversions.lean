import Mathlib.Data.List.Perm.Subperm
import MatchChain.Proofs.Simulation.World

/-!
# Conversions of related values

Values that stand for each other have the same kind, text, number and JSON text, and operators give
the same on them. Text and JSON text are computed with a bound on their nesting that depends on the size
of the heap, and the two heaps have different sizes; but the cells that are open are different ones, so
neither bound is ever reached.
-/

set_option autoImplicit false

namespace MatchChain

variable {v v' : Value} {is js : List Nat} {i j : Nat}

namespace World.Rel

variable {w : World} {v v' : Value}

theorem kindName (h : w.Rel v v') : v.kindName = v'.kindName := by cases h <;> rfl

theorem isNullish (h : w.Rel v v') : v.isNullish = v'.isNullish := by cases h <;> rfl

theorem isTruthy (h : w.Rel v v') : v.isTruthy = v'.isTruthy := by cases h <;> rfl

theorem isReference (h : w.Rel v v') : v.isReference = v'.isReference := by cases h <;> rfl

theorem number? (h : w.Rel v v') : v.number? = v'.number? := by cases h <;> rfl

theorem keepsLeft? (h : w.Rel v v') (op : BinaryOp) : op.keepsLeft? v = op.keepsLeft? v' := by
  cases op <;> simp [BinaryOp.keepsLeft?, h.isTruthy, h.isNullish]

theorem strictEq (hone : OneToOne w.cells) {u u' : Value} (h : w.Rel v v') (hu : w.Rel u u') :
    v.strictEq u = v'.strictEq u' := by
  have hbeq : ∀ {i j k l : Nat}, w.cells i j → w.cells k l → (i == k) = (j == l) := by
    intro i j k l hij hkl
    rw [Bool.eq_iff_iff, beq_iff_eq, beq_iff_eq]
    exact hone i j k l hij hkl
  cases h with
  | plain hv =>
    cases hu with
    | plain hp => rfl
    | array | object | function => cases v <;> first | rfl | cases hv
  | array hc =>
    cases hu with
    | plain hp => cases u <;> first | rfl | cases hp
    | array hc' => exact hbeq hc hc'
    | object | function => rfl
  | object hc =>
    cases hu with
    | plain hp => cases u <;> first | rfl | cases hp
    | object hc' => exact hbeq hc hc'
    | array | function => rfl
  | function hc =>
    cases hu with
    | plain hp => cases u <;> first | rfl | cases hp
    | function hc' => exact hbeq hc hc'
    | array | object => rfl

theorem sameValueZero (hone : OneToOne w.cells) {u u' : Value} (h : w.Rel v v') (hu : w.Rel u u') :
    v.sameValueZero u = v'.sameValueZero u' := by
  have heq := strictEq hone h hu
  cases h with
  | plain hv =>
    cases hu with
    | plain => rfl
    | array | object | function => cases v <;> exact heq
  | array | object | function => cases hu <;> exact heq

end World.Rel

/-! ## Fields -/

namespace World.RelFields

variable {w : World} {fs fs' : Fields}

theorem get? (h : w.RelFields fs fs') (key : String) : w.RelOption (fs.get? key) (fs'.get? key) := by
  induction h with
  | nil => exact .none
  | @cons p q _ _ hp _ ih =>
    obtain ⟨k, v⟩ := p
    obtain ⟨k', v'⟩ := q
    obtain ⟨heq, hv⟩ := hp
    obtain rfl : k = k' := heq
    unfold Fields.get?
    rw [List.lookup_cons, List.lookup_cons]
    cases key == k with
    | true => exact .some hv
    | false => exact ih

theorem contains (h : w.RelFields fs fs') (key : String) : fs.contains key = fs'.contains key := by
  have hget := h.get? key
  unfold Fields.contains
  generalize fs.get? key = o at hget
  generalize fs'.get? key = o' at hget
  cases hget <;> rfl

theorem set (h : w.RelFields fs fs') (key : String) (hv : w.Rel v v') :
    w.RelFields (fs.set key v) (fs'.set key v') := by
  induction h with
  | nil => exact .cons ⟨rfl, hv⟩ .nil
  | @cons p q _ _ hp hrest ih =>
    obtain ⟨k, u⟩ := p
    obtain ⟨k', u'⟩ := q
    obtain ⟨heq, hu⟩ := hp
    obtain rfl : k = k' := heq
    rw [Fields.set, Fields.set]
    split
    · exact .cons ⟨rfl, hv⟩ hrest
    · exact .cons ⟨rfl, hu⟩ ih

theorem setAll {entries entries' : Fields} (he : w.RelFields entries entries') :
    ∀ {fs fs' : Fields}, w.RelFields fs fs' → w.RelFields (fs.setAll entries) (fs'.setAll entries') := by
  induction he with
  | nil => exact fun h => h
  | @cons p q _ _ hp _ ih =>
    obtain ⟨k, v⟩ := p
    obtain ⟨k', v'⟩ := q
    obtain ⟨heq, hv⟩ := hp
    obtain rfl : k = k' := heq
    exact fun h => ih (h.set k hv)

theorem filter (h : w.RelFields fs fs') (keep : String → Bool) :
    w.RelFields (fs.filter fun p => keep p.1) (fs'.filter fun p => keep p.1) := by
  induction h with
  | nil => exact .nil
  | cons hp _ ih =>
    obtain ⟨heq, hv⟩ := hp
    rw [List.filter_cons, List.filter_cons, heq]
    split
    · exact .cons ⟨heq, hv⟩ ih
    · exact ih

/-- Numbered elements of lists that stand for each other. -/
theorem mapIdx {vs vs' : List Value} (h : w.RelList vs vs') :
    w.RelFields (vs.mapIdx fun i x => (toString i, x)) (vs'.mapIdx fun i x => (toString i, x)) := by
  have hfrom : ∀ f : Nat → String, w.RelFields (vs.mapIdx fun i x => (f i, x))
      (vs'.mapIdx fun i x => (f i, x)) := by
    induction h with
    | nil => exact fun _ => .nil
    | cons hv _ ih =>
      intro f
      rw [List.mapIdx_cons, List.mapIdx_cons]
      exact .cons ⟨rfl, hv⟩ (ih fun i => f (i + 1))
  exact hfrom _

end World.RelFields

namespace World.RelList

variable {w : World} {vs vs' : List Value}

theorem getElem? (h : w.RelList vs vs') (i : Nat) : w.RelOption vs[i]? vs'[i]? := by
  induction h generalizing i with
  | nil => exact .none
  | cons hv _ ih =>
    cases i with
    | zero => exact .some hv
    | succ i => exact ih i

theorem length (h : w.RelList vs vs') : vs.length = vs'.length := h.length_eq

theorem headD (h : w.RelList vs vs') : w.Rel (vs.headD .undefined) (vs'.headD .undefined) := by
  cases h with
  | nil => exact .plain rfl
  | cons hv _ => exact hv

theorem tail (h : w.RelList vs vs') : w.RelList vs.tail vs'.tail := by
  cases h with
  | nil => exact .nil
  | cons _ hvs => exact hvs

theorem append {us us' : List Value} (h : w.RelList vs vs') (hu : w.RelList us us') :
    w.RelList (vs ++ us) (vs' ++ us') := List.rel_append h hu

theorem set (h : w.RelList vs vs') (i : Nat) (hv : w.Rel v v') :
    w.RelList (vs.set i v) (vs'.set i v') := by
  induction h generalizing i with
  | nil => exact .nil
  | cons hu hrest ih =>
    cases i with
    | zero => exact .cons hv hrest
    | succ i => exact .cons hu (ih i)

theorem flatten {vss vss' : List (List Value)} (h : List.Forall₂ w.RelList vss vss') :
    w.RelList vss.flatten vss'.flatten := List.rel_flatten h

theorem any_sameValueZero (hone : OneToOne w.cells) (h : w.RelList vs vs') {u u' : Value}
    (hu : w.Rel u u') : vs.any (·.sameValueZero u) = vs'.any (·.sameValueZero u') := by
  induction h with
  | nil => rfl
  | cons hv _ ih => rw [List.any_cons, List.any_cons, ih, Rel.sameValueZero hone hv hu]

theorem resize (h : w.RelList vs vs') (n : Nat) :
    w.RelList (Eval.resize vs n) (Eval.resize vs' n) := by
  unfold Eval.resize
  rw [h.length]
  refine append (List.forall₂_take n h) (List.forall₂_same.mpr fun v hv => ?_)
  rw [List.eq_of_mem_replicate hv]
  exact .plain rfl

end World.RelList

theorem World.RelOption.getD {w : World} {o o' : Option Value} (h : w.RelOption o o') :
    w.Rel (o.getD .undefined) (o'.getD .undefined) := by
  cases h with
  | none => exact .plain rfl
  | some hv => exact hv

/-! ## Text -/

/-- Functions that give the same on values that stand for each other give the same on lists of them. -/
theorem map_congr {α β γ : Type} {r : α → β → Prop} {f : α → γ} {g : β → γ}
    (h : ∀ a b, r a b → f a = g b) {as : List α} {bs : List β} (hr : List.Forall₂ r as bs) :
    as.map f = bs.map g := by
  induction hr with
  | nil => rfl
  | cons hab _ ih => rw [List.map_cons, List.map_cons, h _ _ hab, ih]

/-- Different numbers below a bound are no more than the bound. -/
theorem length_le_of_nodup {is : List Nat} {n : Nat} (h : is.Nodup) (hlt : ∀ i ∈ is, i < n) :
    is.length ≤ n := by
  have hsub := (List.subperm_of_subset h fun i hi => List.mem_range.mpr (hlt i hi)).length_le
  rwa [List.length_range] at hsub

theorem mapM_congr {α β γ : Type} {m : Type → Type} [Monad m] [LawfulMonad m] {r : α → β → Prop} {f : α → m γ}
    {g : β → m γ} (h : ∀ a b, r a b → f a = g b) {as : List α} {bs : List β} (hr : List.Forall₂ r as bs) :
    as.mapM f = bs.mapM g := by
  induction hr with
  | nil => rfl
  | cons hab _ ih => rw [List.mapM_cons, List.mapM_cons, h _ _ hab, ih]

namespace Agree

variable {names : String → Prop} {w : World} {m₁ m₂ : Machine}

theorem items (h : Agree names w m₁ m₂) (hc : w.cells i j) :
    w.RelList (m₁.heap.items i) (m₂.heap.items j) := by
  obtain ⟨c, d, hi, hj, hcd⟩ := h.cells i j hc
  unfold Heap.items
  rw [hi, hj]
  cases hcd with
  | items hv => exact hv
  | fields | closure | native => exact .nil

theorem fields (h : Agree names w m₁ m₂) (hc : w.cells i j) :
    w.RelFields (m₁.heap.fields i) (m₂.heap.fields j) := by
  obtain ⟨c, d, hi, hj, hcd⟩ := h.cells i j hc
  unfold Heap.fields
  rw [hi, hj]
  cases hcd with
  | fields hf => exact hf
  | items | closure | native => exact .nil

theorem functionText (h : Agree names w m₁ m₂) (hc : w.cells i j) :
    m₁.heap.functionText i = m₂.heap.functionText j := by
  obtain ⟨c, d, hi, hj, hcd⟩ := h.cells i j hc
  unfold Heap.functionText
  rw [hi, hj]
  cases hcd <;> rfl

/-- Open cells that stand for each other hold the same ones. -/
theorem contains (h : Agree names w m₁ m₂) (ho : List.Forall₂ w.cells is js)
    (hc : w.cells i j) : is.contains i = js.contains j := by
  induction ho with
  | nil => rfl
  | @cons k l _ _ hkl _ ih =>
    rw [List.contains_cons, List.contains_cons, ih]
    congr 1
    rw [Bool.eq_iff_iff, beq_iff_eq, beq_iff_eq]
    exact h.oneCell i j k l hc hkl

theorem opened_lt (h : Agree names w m₁ m₂) (ho : List.Forall₂ w.cells is js) :
    (∀ i ∈ is, i < m₁.heap.size) ∧ ∀ j ∈ js, j < m₂.heap.size := by
  induction ho with
  | nil => exact ⟨nofun, nofun⟩
  | cons hc _ ih =>
    have hlt := h.cell_lt hc
    exact ⟨List.forall_mem_cons.mpr ⟨hlt.1, ih.1⟩, List.forall_mem_cons.mpr ⟨hlt.2, ih.2⟩⟩

/-- Cells that are open in both machines, each of them once. -/
structure Opened (w : World) (is js : List Nat) : Prop where
  cells : List.Forall₂ w.cells is js
  nodup₁ : is.Nodup
  nodup₂ : js.Nodup

theorem Opened.nil : Opened w [] [] := ⟨.nil, .nil, .nil⟩

theorem Opened.cons (ho : Opened w is js) (hc : w.cells i j)
    (hi : is.contains i = false) (hj : js.contains j = false) : Opened w (i :: is) (j :: js) where
  cells := .cons hc ho.cells
  nodup₁ := List.nodup_cons.mpr ⟨by simpa using hi, ho.nodup₁⟩
  nodup₂ := List.nodup_cons.mpr ⟨by simpa using hj, ho.nodup₂⟩

theorem Opened.length_le (ho : Opened w is js) (h : Agree names w m₁ m₂) :
    is.length ≤ m₁.heap.size ∧ js.length ≤ m₂.heap.size :=
  ⟨length_le_of_nodup ho.nodup₁ (h.opened_lt ho.cells).1,
    length_le_of_nodup ho.nodup₂ (h.opened_lt ho.cells).2⟩

theorem textWithin (h : Agree names w m₁ m₂) : ∀ {n k : Nat} {is js : List Nat} {v v' : Value},
    w.Rel v v' → Opened w is js → m₁.heap.size < n + is.length → m₂.heap.size < k + js.length →
      m₁.heap.textWithin n is v = m₂.heap.textWithin k js v' := by
  intro n
  induction n with
  | zero =>
    intro k is js v v' _ ho hn _
    have := (ho.length_le h).1
    omega
  | succ n ih =>
    intro k is js v v' hv ho hn hk
    cases k with
    | zero =>
      have := (ho.length_le h).2
      omega
    | succ k =>
      cases hv with
      | plain hp => cases v <;> first | rfl | cases hp
      | function hc => exact h.functionText hc
      | @array i j hc =>
        have hmem := h.contains ho.cells hc
        rw [Heap.textWithin, Heap.textWithin, hmem]
        cases hj : js.contains j with
        | true => rfl
        | false =>
          have ho' := ho.cons hc (hmem.trans hj) hj
          simp only [Bool.false_eq_true, if_false]
          congr 1
          refine map_congr (fun u u' hu => ?_) (h.items hc)
          have hpart : m₁.heap.textWithin n (i :: is) u = m₂.heap.textWithin k (j :: js) u' :=
            ih hu ho' (by rw [List.length_cons]; omega) (by rw [List.length_cons]; omega)
          rw [hu.isNullish, hpart]
      | @object i j hc =>
        have hmem := h.contains ho.cells hc
        rw [Heap.textWithin, Heap.textWithin, hmem]
        cases hj : js.contains j with
        | true => rfl
        | false =>
          have ho' := ho.cons hc (hmem.trans hj) hj
          have hparts : ∀ {u u' : Value}, w.Rel u u' →
              m₁.heap.textWithin n (i :: is) u = m₂.heap.textWithin k (j :: js) u' := fun hu =>
            ih hu ho' (by rw [List.length_cons]; omega) (by rw [List.length_cons]; omega)
          have hname := (h.fields hc).get? "name"
          have hmessage := (h.fields hc).get? "message"
          simp only [Bool.false_eq_true, if_false]
          generalize (m₁.heap.fields i).get? "name" = a at hname
          generalize (m₂.heap.fields j).get? "name" = a' at hname
          generalize (m₁.heap.fields i).get? "message" = b at hmessage
          generalize (m₂.heap.fields j).get? "message" = b' at hmessage
          cases hname with
          | none => rfl
          | some hname =>
            cases hmessage with
            | none => rfl
            | some hmessage => dsimp only; rw [hparts hname, hparts hmessage]

theorem text (h : Agree names w m₁ m₂) (hv : w.Rel v v') :
    m₁.heap.text v = m₂.heap.text v' :=
  h.textWithin hv .nil (Nat.lt_succ_self _) (Nat.lt_succ_self _)

theorem jsonWithin (h : Agree names w m₁ m₂) : ∀ {n k : Nat} {is js : List Nat} {v v' : Value},
    w.Rel v v' → Opened w is js → m₁.heap.size < n + is.length → m₂.heap.size < k + js.length →
      m₁.heap.jsonWithin n is v = m₂.heap.jsonWithin k js v' := by
  intro n
  induction n with
  | zero =>
    intro k is js v v' _ ho hn _
    have := (ho.length_le h).1
    omega
  | succ n ih =>
    intro k is js v v' hv ho hn hk
    cases k with
    | zero =>
      have := (ho.length_le h).2
      omega
    | succ k =>
      cases hv with
      | plain hp => cases v <;> first | rfl | cases hp
      | function hc => rfl
      | @array i j hc =>
        have hmem := h.contains ho.cells hc
        rw [Heap.jsonWithin, Heap.jsonWithin, hmem]
        cases hj : js.contains j with
        | true => rfl
        | false =>
          have ho' := ho.cons hc (hmem.trans hj) hj
          simp only [Bool.false_eq_true, if_false]
          congr 1
          refine mapM_congr (fun u u' hu => ?_) (h.items hc)
          have hpart : m₁.heap.jsonWithin n (i :: is) u = m₂.heap.jsonWithin k (j :: js) u' :=
            ih hu ho' (by rw [List.length_cons]; omega) (by rw [List.length_cons]; omega)
          rw [hpart]
      | @object i j hc =>
        have hmem := h.contains ho.cells hc
        rw [Heap.jsonWithin, Heap.jsonWithin, hmem]
        cases hj : js.contains j with
        | true => rfl
        | false =>
          have ho' := ho.cons hc (hmem.trans hj) hj
          simp only [Bool.false_eq_true, if_false]
          congr 1
          refine mapM_congr (fun p q hpq => ?_) (h.fields hc)
          have hpart : m₁.heap.jsonWithin n (i :: is) p.2 = m₂.heap.jsonWithin k (j :: js) q.2 :=
            ih hpq.2 ho' (by rw [List.length_cons]; omega) (by rw [List.length_cons]; omega)
          obtain ⟨key, u⟩ := p
          obtain ⟨key', u'⟩ := q
          obtain rfl : key = key' := hpq.1
          dsimp only at hpart ⊢
          rw [hpart]

theorem json (h : Agree names w m₁ m₂) (hv : w.Rel v v') :
    m₁.heap.json v = m₂.heap.json v' := by
  have hwithin : m₁.heap.jsonWithin (m₁.heap.size + 2) [] v = m₂.heap.jsonWithin (m₂.heap.size + 2) [] v' :=
    h.jsonWithin hv .nil (by rw [List.length_nil]; omega) (by rw [List.length_nil]; omega)
  rw [Heap.json, hwithin, Heap.json]

/-! ## Numbers and operators -/

theorem toNumber (h : Agree names w m₁ m₂) (hv : w.Rel v v') :
    m₁.heap.toNumber v = m₂.heap.toNumber v' := by
  cases hv with
  | plain hp => cases v <;> first | rfl | cases hp
  | array hc =>
    have hitems := h.items hc
    unfold Heap.toNumber
    dsimp only
    generalize m₁.heap.items _ = vs at hitems
    generalize m₂.heap.items _ = vs' at hitems
    cases hitems with
    | nil => rfl
    | cons hu hrest =>
      cases hrest with
      | nil => dsimp only; rw [h.text hu]
      | cons => rfl
  | object | function => rfl

theorem looseEq (h : Agree names w m₁ m₂) {v v' u u' : Value} (hv : w.Rel v v') (hu : w.Rel u u') :
    m₁.heap.looseEq v u = m₂.heap.looseEq v' u' := by
  have hstrict := World.Rel.strictEq h.oneCell hv hu
  unfold Heap.looseEq
  rw [hv.isNullish, hu.isNullish, h.toNumber hv, h.toNumber hu, h.text hv, h.text hu, hstrict]
  congr 1
  cases hv with
  | plain hp =>
    cases hu with
    | plain => rfl
    | array | object | function => cases v <;> rfl
  | array | object | function =>
    cases hu with
    | plain hq => cases u <;> rfl
    | array | object | function => rfl

theorem order? (h : Agree names w m₁ m₂) {v v' u u' : Value} (hv : w.Rel v v') (hu : w.Rel u u') :
    m₁.heap.order? v u = m₂.heap.order? v' u' := by
  have hcompare : (m₁.heap.toNumber v).compare? (m₁.heap.toNumber u)
      = (m₂.heap.toNumber v').compare? (m₂.heap.toNumber u') := by
    rw [h.toNumber hv, h.toNumber hu]
  cases hv with
  | plain =>
    cases hu with
    | plain => cases v <;> cases u <;> first | exact hcompare | rfl
    | array | object | function => cases v <;> exact hcompare
  | array | object | function => exact hcompare

theorem addsAsText (hv : w.Rel v v') : Heap.addsAsText v = Heap.addsAsText v' := by
  cases hv <;> rfl

theorem hasKey (h : Agree names w m₁ m₂) {v v' u u' : Value} (hv : w.Rel v v') (hu : w.Rel u u')
    (span : Span) : m₁.heap.hasKey span v u = m₂.heap.hasKey span v' u' := by
  unfold Heap.hasKey
  rw [h.text hv, h.text hu]
  cases hu with
  | plain hq => cases u <;> first | rfl | cases hq
  | array hc => dsimp only; rw [(h.items hc).length]
  | object hc => dsimp only; rw [(h.fields hc).contains]
  | function => rfl

theorem binary (h : Agree names w m₁ m₂) {v v' u u' : Value} (hv : w.Rel v v') (hu : w.Rel u u')
    (span : Span) (op : BinaryOp) :
    m₁.heap.binary span op v u = m₂.heap.binary span op v' u' := by
  have hnum := h.toNumber hv
  have hnum' := h.toNumber hu
  cases op with
  | add =>
    simp only [Heap.binary, Heap.add, addsAsText hv, addsAsText hu, h.text hv, h.text hu, hnum, hnum']
  | strictEq | strictNotEq => simp only [Heap.binary, World.Rel.strictEq h.oneCell hv hu]
  | looseEq | looseNotEq => simp only [Heap.binary, h.looseEq hv hu]
  | lt | gt | ltEq | gtEq => simp only [Heap.binary, h.order? hv hu]
  | isIn => simp only [Heap.binary, h.hasKey hv hu]
  | _ => simp only [Heap.binary, Heap.word, Heap.shiftAmount, hnum, hnum']

theorem unary (h : Agree names w m₁ m₂) (hv : w.Rel v v') (span : Span)
    (op : UnaryOp) : m₁.heap.unary span op v = m₂.heap.unary span op v' := by
  have hnum := h.toNumber hv
  cases op with
  | not => simp only [Heap.unary, hv.isTruthy]
  | neg =>
    cases hv with
    | plain hp => cases v <;> first | rfl | cases hp
    | array | object | function => simp only [Heap.unary, hnum]
  | typeOf => simp only [Heap.unary, hv.kindName]
  | _ => simp only [Heap.unary, Heap.word, hnum]

end Agree

/-- Operators never give a reference. -/
theorem Heap.binary_isReference {h : Heap} {span : Span} {op : BinaryOp} {a b v : Value}
    (hv : h.binary span op a b = .ok v) : v.isReference = false := by
  cases op with
  | add =>
    obtain rfl := Except.ok.inj hv
    unfold Heap.add
    split <;> rfl
  | isIn =>
    cases hkey : h.hasKey span a b with
    | ok found => simp only [Heap.binary, hkey] at hv; obtain rfl := Except.ok.inj hv; rfl
    | error e => simp only [Heap.binary, hkey] at hv; cases hv
  | instanceOf | and | or | nullish => cases hv
  | _ => obtain rfl := Except.ok.inj hv; rfl

theorem Heap.unary_isReference {h : Heap} {span : Span} {op : UnaryOp} {a v : Value}
    (hv : h.unary span op a = .ok v) : v.isReference = false := by
  cases op with
  | neg => cases a <;> (obtain rfl := Except.ok.inj hv; rfl)
  | delete | await => cases hv
  | _ => obtain rfl := Except.ok.inj hv; rfl

end MatchChain
