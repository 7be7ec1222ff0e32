import MatchChain.Proofs.Syntax.Total

/-!
# Spans say where a part stands

The span of every part of a program that was read is a slice of its source, inside the slice of the
part around it, and the slice of an identifier is its name. This holds of the expressions in template
literals, at any depth, as it does of all others, if no offset of the source is clamped.
-/

set_option autoImplicit false

namespace MatchChain

/-! ## Parts -/

/-- The span of a part says where in the source it stands, and where its children do. -/
structure Part.Accurate (source : String) (n : Part) : Prop where
  ordered : n.span.start ≤ n.span.stop
  inside : n.span.stop ≤ Text.byteLength source.toList
  /-- Both ends are boundaries of characters. -/
  sliced : ∃ text, n.span.slice? source = some text
  nested : ∀ m ∈ n.children, n.span.start ≤ m.span.start ∧ m.span.stop ≤ n.span.stop
  named : ∀ span name, n = .expr (.ident span name) → span.slice? source = some name

theorem Part.Good.accurate {source : String} {n : Part} {hlength : Text.byteLength source.toList ≤ maxOffset}
    (h : n.Good (.ofSource source.toList hlength)) : n.Accurate source where
  ordered := h.ordered
  inside := Locator.Stands.le h.stop
  sliced := by
    obtain ⟨cs, hslice⟩ := Locator.Stands.between h.start h.stop h.ordered
    exact ⟨String.ofList cs, by rw [Span.slice?, hslice, Option.map_some]⟩
  nested := h.children
  named := by
    rintro span name rfl
    have hslice := (h.named span name rfl).slice
    rwa [String.ofList_toList] at hslice

/-- Every part of a program that was read stands where its span says, inside the part around it. -/
theorem Program.parse_accurate {source : String} {p : Program} (hlength : Text.byteLength source.toList < 4294967296)
    (h : Program.parse source = .ok p) : ∀ s ∈ p, (Part.stmt s).All (Part.Accurate source) := by
  have hfits : Text.byteLength source.toList ≤ maxOffset := Nat.le_of_lt_succ hlength
  have hat : (Locator.ofSource source.toList hfits).At 0 source.toList := ⟨[], [], (List.append_nil _).symm, rfl⟩
  intro s hs
  exact (Program.all_good_of_parse hat h s hs).imp fun _ hgood => hgood.accurate

def nestedTemplates : String :=
  "const \x7b 'é': [x = (y)], ...rest \x7d = `ü$\x7bf(`é$\x7b\x7b x, k: x?.[y] \x7d\x7d`)\x7d`; if (x) while (y) z => -z; else rest;"

/-- Templates in templates, letters of two bytes, a default in parentheses and names that stand alone. -/
theorem Program.parse_accurate_nestedTemplates : ∃ p, Program.parse nestedTemplates = .ok p ∧ p.length = 2 ∧
    ∀ s ∈ p, (Part.stmt s).All (Part.Accurate nestedTemplates) := by
  have hlength : Text.byteLength nestedTemplates.toList < 4294967296 := by decide +kernel
  have hread : (Program.parse nestedTemplates).toOption.any (fun p => p.length == 2) = true := by decide +kernel
  cases h : Program.parse nestedTemplates with
  | error cause =>
    rw [h] at hread
    cases hread
  | ok p =>
    rw [h] at hread
    exact ⟨p, rfl, beq_iff_eq.mp hread, Program.parse_accurate hlength h⟩

end MatchChain
