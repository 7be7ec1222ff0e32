import MatchChain.Code.Generate

/-!
# When a handler captures the subject

A subject that is harmless to repeat is mentioned as it is in the code of a handler that is moved into
place, next to the names that the handler binds. If the handler binds a name of the subject there, what is
read is the handler's own variable. `captures_iff` says exactly when: the subject is a plain field of a name
that the handler binds, and fields are trusted. A subject that is a name itself is read into a fresh name
before, so it is never captured.
-/

set_option autoImplicit false

namespace MatchChain

variable {handler : Handler}

namespace MatchExpr

variable {m : MatchExpr} {options : GenerateOptions} {sink : Sink}

/-- A handler is moved into place, and binds a name there. -/
def MovedBinding (m : MatchExpr) (sink : Sink) (handler : Handler) (x : String) : Prop :=
  ∃ fn, handler.plan m.span sink.targetNames = .moved fn ∧ x ∈ fn.topLevelNames

/-- The subject is repeated in the code of a moved handler that binds one of its names. -/
structure Captures (m : MatchExpr) (options : GenerateOptions) (sink : Sink) (handler : Handler) (x : String) :
    Prop where
  repeated : m.needsCache options sink = false
  mentioned : x ∈ m.subject.identNames
  bound : m.MovedBinding sink handler x

/-- The names that `needsCache` looks for the subject's name in are those that moved handlers bind. -/
theorem mem_boundNames {x : String} (hhandler : handler ∈ m.handlers)
    (hx : m.MovedBinding sink handler x) :
    x ∈ (m.plans sink ++ (m.fallback.map (·.plan m.span sink.targetNames)).toList).flatMap
      Invocation.boundNames := by
  obtain ⟨fn, hplan, hx⟩ := hx
  have hmem : handler.plan m.span sink.targetNames
      ∈ m.plans sink ++ (m.fallback.map (·.plan m.span sink.targetNames)).toList := by
    rcases List.mem_append.mp hhandler with hbranch | hfallback
    · obtain ⟨b, hb, rfl⟩ := List.mem_map.mp hbranch
      exact List.mem_append_left _ (List.mem_map.mpr ⟨b, hb, rfl⟩)
    · refine List.mem_append_right _ ?_
      cases hm : m.fallback with
      | none => simp [hm] at hfallback
      | some last =>
        rw [hm] at hfallback
        rw [List.mem_singleton.mp hfallback]
        exact List.mem_singleton_self _
  refine List.mem_flatMap.mpr ⟨_, hmem, ?_⟩
  rw [hplan]
  exact hx

/-- A subject that is a name which a moved handler binds is read into a fresh name. -/
theorem needsCache_of_ident {span : Span} {x : String} (hsubject : m.subject = .ident span x)
    (hhandler : handler ∈ m.handlers) (hx : m.MovedBinding sink handler x) :
    m.needsCache options sink = true := by
  have hmem := mem_boundNames hhandler hx
  unfold needsCache
  rw [hsubject]
  dsimp only [Expr.identName?, Option.map_some, Option.getD_some]
  rw [List.contains_iff_mem.mpr hmem, Bool.or_true]

/-- A trusted field of a name is repeated, whatever the handlers bind. -/
theorem needsCache_of_field {span inner : Span} {x field : String} (hcost : options.cost = .trustFields)
    (hsubject : m.subject = .member span (.ident inner x) field false) (sink : Sink) :
    m.needsCache options sink = false := by
  unfold needsCache
  rw [hsubject, hcost]
  rfl

/-- The subject is captured exactly if it is a trusted field of a name that a moved handler binds. -/
theorem captures_iff (hhandler : handler ∈ m.handlers) (x : String) :
    m.Captures options sink handler x ↔
      options.cost = .trustFields ∧ (∃ span inner field, m.subject = .member span (.ident inner x) field false) ∧
        m.MovedBinding sink handler x := by
  constructor
  · intro h
    have hcheap : options.cost.isCheap m.subject = true := by
      simpa using (Bool.or_eq_false_iff.mp h.repeated).1
    have hmentioned := h.mentioned
    unfold CostModel.isCheap at hcheap
    split at hcheap
    next span name hsubject =>
      -- a name that is bound would have been cached
      rw [hsubject] at hmentioned
      obtain rfl : x = name := by simpa [Expr.identNames, Visit.ofExpr, Visit.identName?] using hmentioned
      have hcached : m.needsCache options sink = true := needsCache_of_ident hsubject hhandler h.bound
      rw [h.repeated] at hcached
      cases hcached
    next span inner name field hcost hsubject =>
      rw [hsubject] at hmentioned
      obtain rfl : name = x := by simpa [Expr.identNames, Visit.ofExpr, Visit.identName?] using hmentioned
      exact ⟨hcost, ⟨span, inner, field, hsubject⟩, h.bound⟩
    · cases hcheap
  · rintro ⟨hcost, ⟨span, inner, field, hsubject⟩, hbound⟩
    refine ⟨needsCache_of_field hcost hsubject sink, ?_, hbound⟩
    rw [hsubject]
    simp [Expr.identNames, Visit.ofExpr, Visit.identName?]

/-- A field of `a`, for a handler whose parameter is `a`. -/
def fieldOfParameter : MatchExpr where
  subject := .member default (.ident default "a") "b" false
  branches := [
    { patterns := [.wildcard], guard := none, span := default
      handler := .inline ⟨default, .arrow, none, [⟨default, .ident default "a", none, false⟩],
        .expr (.ident default "a"), false, false⟩ }]
  fallback := none
  exhaustive := false
  span := default

/-- The parameter is declared from a field of itself. -/
theorem generate_fieldOfParameter :
    fieldOfParameter.generate { cost := .trustFields } (.declaration .letVar "r") 0 = .ok (.stmts [
      Emission.declare default .letVar (.ident default "r") none,
      .labeled default "__patty_0_0" (.block default [.block default [
        Emission.declare default .letVar (.ident default "a") (some fieldOfParameter.subject),
        .expr default (.assign default .assign (.ident default "r") (.ident default "a")),
        .breakTo default (some "__patty_0_0")]])]) := by
  rfl

end MatchExpr

end MatchChain
