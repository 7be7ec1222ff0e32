import Mathlib.Data.List.Basic
import MatchChain.Code.Fresh

/-!
# Supplies of names

No two supplies have a name in common, and no supply gives one twice. `Naming.Holds` follows steps that
take names: what is shown of a result may rely on the names that have been taken in the end.
-/

set_option autoImplicit false

namespace MatchChain

namespace FreshNames

/-! ## Names -/

/-- The names for one match expression. -/
def Mints (ordinal : Nat) (x : String) : Prop := ∃ n, x = name ordinal n

/-- The names for match expressions. -/
def Reserved (x : String) : Prop := ∃ ordinal, Mints ordinal x

theorem underscore_notMem_toDigits (n : Nat) : '_' ∉ Nat.toDigits 10 n := fun h =>
  absurd (Nat.isDigit_of_mem_toDigits (by decide) (by decide) h) (by decide)

theorem toDigits_inj {n k : Nat} (h : Nat.toDigits 10 n = Nat.toDigits 10 k) : n = k := by
  rw [← Nat.ofDigitChars_ten_toDigits (n := n), h, Nat.ofDigitChars_ten_toDigits]

theorem toList_name (ordinal n : Nat) :
    (name ordinal n).toList = "__patty_".toList ++ (Nat.toDigits 10 ordinal ++ '_' :: Nat.toDigits 10 n) := by
  rw [name, String.toList_append, String.toList_append, String.toList_append, List.append_assoc, List.append_assoc]
  change _ ++ (ordinal.repr.toList ++ ('_' :: n.repr.toList)) = _
  rw [Nat.toList_repr, Nat.toList_repr]

theorem not_reserved {x : String} (h : "__patty_".toList.isPrefixOf x.toList = false) : ¬ Reserved x := by
  rintro ⟨ordinal, n, rfl⟩
  rw [toList_name, List.isPrefixOf_iff_prefix.mpr (List.prefix_append _ _)] at h
  cases h

/-- A name tells its supply and its number. -/
theorem name_inj {i j n k : Nat} (h : name i n = name j k) : i = j ∧ n = k := by
  have hchars := congrArg String.toList h
  rw [toList_name, toList_name] at hchars
  obtain ⟨hi, _, hn⟩ :=
    (List.append_cons_inj_of_notMem (underscore_notMem_toDigits i) (underscore_notMem_toDigits n)).mp
      (List.append_cancel_left hchars)
  exact ⟨toDigits_inj hi, toDigits_inj hn⟩

/-! ## What has been taken -/

theorem nodup_taken (f : FreshNames) : f.taken.Nodup :=
  List.Pairwise.map _ (fun _ _ hne heq => hne (name_inj heq).2) List.nodup_range

/-- A later state of a supply. -/
structure Grows (f g : FreshNames) : Prop where
  ordinal : g.ordinal = f.ordinal
  next : f.next ≤ g.next

theorem Grows.refl (f : FreshNames) : f.Grows f := ⟨rfl, Nat.le_refl _⟩

theorem Grows.trans {f g k : FreshNames} (h : f.Grows g) (h' : g.Grows k) : f.Grows k :=
  ⟨h'.ordinal.trans h.ordinal, Nat.le_trans h.next h'.next⟩

theorem mem_taken {f : FreshNames} {x : String} : x ∈ f.taken ↔ ∃ n < f.next, name f.ordinal n = x := by
  simp [taken]

theorem Grows.taken {f g : FreshNames} (h : f.Grows g) : ∀ x ∈ f.taken, x ∈ g.taken := by
  intro x hx
  obtain ⟨n, hn, rfl⟩ := mem_taken.mp hx
  exact mem_taken.mpr ⟨n, Nat.lt_of_lt_of_le hn h.next, by rw [h.ordinal]⟩

theorem Grows.mint (f : FreshNames) : f.Grows f.mint.2 := ⟨rfl, Nat.le_succ _⟩

theorem mint_mem_taken (f : FreshNames) : f.mint.1 ∈ f.mint.2.taken := mem_taken.mpr ⟨f.next, Nat.lt_succ_self _, rfl⟩

end FreshNames

/-! ## Steps -/

namespace Naming

variable {ε α β : Type} {A : String → Prop}

/-- A step that gives no name back, and whose result satisfies `Q` if all names that are taken at its end
    satisfy `A`. -/
def Holds (A : String → Prop) (p : Naming ε α) (Q : α → Prop) : Prop :=
  ∀ f, f.Grows (p.run.run f).2 ∧ ∀ a, (p.run.run f).1 = .ok a → (∀ x ∈ (p.run.run f).2.taken, A x) → Q a

namespace Holds

theorem pure {Q : α → Prop} {a : α} (h : Q a) : Holds A (Pure.pure a : Naming ε α) Q := by
  refine fun f => ⟨.refl f, ?_⟩
  rintro _ ⟨⟩ _
  exact h

theorem throw {Q : α → Prop} (e : ε) : Holds A (MonadExcept.throw e : Naming ε α) Q :=
  fun f => ⟨.refl f, nofun⟩

theorem ofExcept {Q : α → Prop} {r : Except ε α} (h : ∀ a, r = .ok a → Q a) : Holds A (liftM r : Naming ε α) Q :=
  fun f => ⟨.refl f, fun a ha _ => h a ha⟩

theorem fresh : Holds A (Naming.fresh : Naming ε String) A := by
  refine fun f => ⟨.mint f, ?_⟩
  rintro _ ⟨⟩ h
  exact h _ f.mint_mem_taken

theorem freshIf (wanted : Bool) : Holds A (Naming.freshIf wanted : Naming ε (Option String)) (∀ x ∈ ·, A x) := by
  cases wanted with
  | false =>
    refine fun f => ⟨.refl f, ?_⟩
    rintro _ ⟨⟩ _
    exact nofun
  | true =>
    refine fun f => ⟨.mint f, ?_⟩
    rintro _ ⟨⟩ h _ ⟨⟩
    exact h _ f.mint_mem_taken

theorem bind {p : Naming ε α} {k : α → Naming ε β} {Q : α → Prop} {R : β → Prop} (hp : Holds A p Q)
    (hk : ∀ a, Holds A (k a) fun b => Q a → R b) : Holds A (p >>= k) R := by
  intro f
  obtain ⟨hgrows, hq⟩ := hp f
  rw [ExceptT.run_bind, StateT.run_bind]
  generalize p.run.run f = r at hgrows hq ⊢
  obtain ⟨_ | a, f'⟩ := r
  · exact ⟨hgrows, nofun⟩
  · obtain ⟨hgrows', hr⟩ := hk a f'
    refine ⟨hgrows.trans hgrows', fun b hb hnames => hr b hb hnames (hq a rfl fun x hx => ?_)⟩
    exact hnames x (hgrows'.taken x hx)

end Holds

end Naming

end MatchChain
