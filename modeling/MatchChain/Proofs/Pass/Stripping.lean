import MatchChain.Pass.Imports
import MatchChain.Proofs.Syntax.Visited

/-!
# Taking out the import of the matcher

The import goes only if no identifier anywhere in the program names the matcher, and nothing else goes with
it: the imports of the pattern module lose the specifiers that bind the name, an import that has no other
specifier is dropped, and all that is left keeps its order.
-/

set_option autoImplicit false

namespace MatchChain.Program

variable {p p' : Program} {name : String}

/-- An identifier in the program has this name, inside functions, patterns and templates too. -/
def Mentions (p : Program) (name : String) : Prop :=
  ∃ s ∈ p, ∃ span, (Part.stmt s).Holds (fun _ => true) (.expr (.ident span name))

/-- The second program is the first without the specifiers of the pattern module that bind a name. -/
inductive Strips (name : String) : Program → Program → Prop
  | nil : Strips name [] []
  | keep {s : Stmt} {p p' : Program} : (∀ span specifiers, s = .importDecl span specifiers patternModule →
      ∀ x ∈ specifiers, x.binds name = false) → Strips name p p' → Strips name (s :: p) (s :: p')
  | trim {span : Span} {specifiers : List ImportSpecifier} {p p' : Program} :
      (∃ x ∈ specifiers, x.binds name = true) → (∃ x ∈ specifiers, x.binds name = false) → Strips name p p' →
      Strips name (.importDecl span specifiers patternModule :: p)
        (.importDecl span (specifiers.filter (!·.binds name)) patternModule :: p')
  | drop {span : Span} {specifiers : List ImportSpecifier} {p p' : Program} : specifiers ≠ [] →
      (∀ x ∈ specifiers, x.binds name = true) → Strips name p p' →
      Strips name (.importDecl span specifiers patternModule :: p) p'

/-! ## Mentions -/

theorem identName?_eq_some {v : Visit} : v.identName? = some name ↔ ∃ span, v.expr? = some (.ident span name) := by
  obtain ⟨node, nested⟩ := v
  cases node with
  | expr e => cases e <;> simp [Visit.identName?, Visit.expr?]
  | stmt | binding => simp [Visit.identName?, Visit.expr?]

/-- The visitor finds an identifier wherever there is one. -/
theorem mentions_iff : p.mentions name = true ↔ p.Mentions name := by
  have hvisits : p.visits.filterMap Visit.expr? = (p.map Part.stmt).flatMap (Part.exprs (fun _ => true) false) :=
    Part.filterMap_ofStmts _ _ p
  have hmentions : p.mentions name = true ↔ ∃ span, .ident span name ∈ p.visits.filterMap Visit.expr? := by
    simp only [mentions, List.any_eq_true, beq_iff_eq, identName?_eq_some, List.mem_filterMap]
    constructor
    · rintro ⟨v, hv, span, h⟩
      exact ⟨span, v, hv, h⟩
    · rintro ⟨span, v, hv, h⟩
      exact ⟨v, hv, span, h⟩
  rw [hmentions, hvisits]
  constructor
  · rintro ⟨span, h⟩
    obtain ⟨n, hn, h⟩ := List.mem_flatMap.mp h
    obtain ⟨s, hs, rfl⟩ := List.mem_map.mp hn
    exact ⟨s, hs, span, Part.holds_of_mem_exprs h⟩
  · rintro ⟨s, hs, span, h⟩
    exact ⟨span, List.mem_flatMap.mpr ⟨_, List.mem_map_of_mem hs, Part.mem_exprs_of_holds h false⟩⟩

/-! ## Specifiers -/

theorem mem_patternSpecifiers_cons {s : Stmt} {x : ImportSpecifier} :
    x ∈ patternSpecifiers (s :: p) ↔
      (∃ span specifiers, s = .importDecl span specifiers patternModule ∧ x ∈ specifiers) ∨ x ∈ p.patternSpecifiers := by
  unfold patternSpecifiers
  rw [List.flatMap_cons, List.mem_append]
  refine or_congr_left ?_
  cases s with
  | importDecl span specifiers source =>
    by_cases hsource : source = patternModule <;> simp [hsource, and_assoc]
  | _ => simp

theorem strips_filterMap (name : String) (p : Program) : Strips name p (p.filterMap (Stmt.withoutImport name)) := by
  induction p with
  | nil => exact .nil
  | cons s p ih =>
    cases s with
    | importDecl span specifiers source =>
      rw [List.filterMap_cons, Stmt.withoutImport]
      by_cases hsource : source = patternModule
      · subst hsource
        by_cases hbinds : ∃ x ∈ specifiers, x.binds name = true
        · have hany : specifiers.any (·.binds name) = true := List.any_eq_true.mpr hbinds
          by_cases hkept : ∃ x ∈ specifiers, x.binds name = false
          · have hne : (specifiers.filter (!·.binds name)).isEmpty = false := by simpa using hkept
            simpa [hany, hne] using Strips.trim hbinds hkept ih
          · have hempty : (specifiers.filter (!·.binds name)).isEmpty = true := by simpa using hkept
            obtain ⟨x, hx, _⟩ := hbinds
            simpa [hany, hempty] using Strips.drop (List.ne_nil_of_mem hx) (by simpa using hkept) ih
        · have hany : specifiers.any (·.binds name) = false := by simpa using hbinds
          simp only [hany, Bool.and_false, Bool.false_eq_true, if_false]
          refine .keep ?_ ih
          rintro _ _ ⟨⟩
          simpa using hbinds
      · have hother : (source == patternModule) = false := beq_false_of_ne hsource
        simp only [hother, Bool.false_and, Bool.false_eq_true, if_false]
        refine .keep ?_ ih
        rintro _ _ ⟨⟩
        exact absurd rfl hsource
    | _ => exact .keep (by rintro _ _ ⟨⟩) ih

/-- Where no specifier binds the name, nothing changes. -/
theorem Strips.eq_of_unbound (h : Strips name p p') (hp : ∀ x ∈ p.patternSpecifiers, x.binds name = false) : p' = p := by
  induction h with
  | nil => rfl
  | keep _ _ ih => rw [ih fun x hx => hp x (mem_patternSpecifiers_cons.mpr (.inr hx))]
  | @trim span specifiers _ _ hbinds =>
    obtain ⟨x, hx, hbinds⟩ := hbinds
    rw [hp x (mem_patternSpecifiers_cons.mpr (.inl ⟨span, specifiers, rfl, hx⟩))] at hbinds
    cases hbinds
  | @drop span specifiers _ _ hne hbinds =>
    obtain ⟨x, hx⟩ := List.exists_mem_of_ne_nil _ hne
    have hfree := hp x (mem_patternSpecifiers_cons.mpr (.inl ⟨span, specifiers, rfl, hx⟩))
    rw [hbinds x hx] at hfree
    cases hfree

/-- No specifier of what is left binds the name. -/
theorem Strips.unbound (h : Strips name p p') : ∀ x ∈ p'.patternSpecifiers, x.binds name = false := by
  induction h with
  | nil => exact List.forall_mem_nil _
  | keep hs _ ih =>
    intro x hx
    rcases mem_patternSpecifiers_cons.mp hx with ⟨span, specifiers, rfl, hmem⟩ | hmem
    · exact hs span specifiers rfl x hmem
    · exact ih x hmem
  | trim _ _ _ ih =>
    intro x hx
    rcases mem_patternSpecifiers_cons.mp hx with ⟨_, _, ⟨⟩, hmem⟩ | hmem
    · simpa using (List.mem_filter.mp hmem).2
    · exact ih x hmem
  | drop _ _ _ ih => exact ih

theorem strip_eq (p : Program) (name : String) : p.strip name = if p.mentions name then (false, p)
    else (p.patternSpecifiers.any (·.binds name), p.filterMap (Stmt.withoutImport name)) := rfl

/-- Something is taken out exactly if the matcher is imported and nothing mentions it. Then the specifiers that bind
    it go, with the imports that have no others, and all else stays in order; otherwise the program is as it was. A
    second time there is nothing to take out. -/
theorem strip_exact (p : Program) (matcher : String) :
    ((p.strip matcher).1 = true ↔
      ¬ p.Mentions matcher ∧ ∃ x ∈ p.patternSpecifiers, x.kind = .named ∧ x.localName = matcher) ∧
    ((p.strip matcher).1 = true → Strips matcher p (p.strip matcher).2) ∧
    ((p.strip matcher).1 = false → (p.strip matcher).2 = p) ∧
    ((p.strip matcher).2.strip matcher).1 = false := by
  have hbinds : p.patternSpecifiers.any (·.binds matcher) = true ↔
      ∃ x ∈ p.patternSpecifiers, x.kind = .named ∧ x.localName = matcher := by
    simp [ImportSpecifier.binds]
  have hstrips := strips_filterMap matcher p
  rw [← mentions_iff, ← hbinds]
  cases hmentions : p.mentions matcher with
  | true =>
    have hstrip : p.strip matcher = (false, p) := by rw [strip_eq, hmentions]; rfl
    simp [hstrip]
  | false =>
    have hstrip : p.strip matcher = (p.patternSpecifiers.any (·.binds matcher),
        p.filterMap (Stmt.withoutImport matcher)) := by rw [strip_eq, hmentions]; rfl
    rw [hstrip]
    refine ⟨by simp, fun _ => hstrips, fun hunbound => hstrips.eq_of_unbound ?_, ?_⟩
    · simpa using hunbound
    · rw [strip_eq]
      split
      · rfl
      · simpa using hstrips.unbound

end MatchChain.Program
