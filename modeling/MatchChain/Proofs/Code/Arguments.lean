import Mathlib.Data.List.Forall2
import MatchChain.Proofs.Code.Tests
import MatchChain.Proofs.Match.Dispatch

/-!
# Arguments of handlers

The expressions by which generated code reads what a pattern selects give the same as following the
paths that the pattern selects, and so do the argument lists that are made of them.
-/

set_option autoImplicit false

namespace MatchChain

open Eval Outcome

theorem Eval.run_follow (span : Span) (keys : List String) : ∀ (v : Value) (m : Machine),
    ∃ w m', m.Spawned m' ∧ (follow span v keys).run.run m = (.ok w, m') := by
  induction keys with
  | nil => exact fun v m => ⟨v, m, .refl m, rfl⟩
  | cons key keys ih =>
    intro v m
    obtain ⟨w, m', hs, hrest⟩ := ih (m.heap.part v key) (m.afterRead v key)
    refine ⟨w, m', .trans (.afterRead m v key) hs, ?_⟩
    rw [follow, List.foldlM_cons, run_bind_ok (run_part span v key m)]
    exact hrest

/-- An expression reads what keys lead to, where a name holds the value that they start from. -/
structure Leads (span : Span) (x : String) (v : Value) (e : Expr) (keys : List String) : Prop where
  isPlain : ∀ span inner, e ≠ .spread span inner
  reads : ∀ m : Machine, m.lookup? x = some v →
    limit (expr · e) m = Outcome.ofRun? ((follow span v keys).run.run m)

namespace Leads

variable {x : String} {v : Value} {e : Expr} {keys : List String} {style : AccessStyle}

theorem ident (span inner : Span) (x : String) (v : Value) : Leads span x v (.ident inner x) [] :=
  ⟨nofun, fun _ hm => limit_expr_ident hm inner⟩

theorem access {span : Span} (h : Leads span x v e keys) {e' : Expr} {key : String}
    (he : IsAccess span e key true e') : Leads span x v e' (keys ++ [key]) := by
  refine ⟨he.isPlain, fun m hm => ?_⟩
  have hfollow : follow span v (keys ++ [key]) = follow span v keys >>= fun w => part span w key := by
    simp [follow]
  rw [he.limit_expr, h.reads m hm, hfollow, ofRun?_bind]

theorem field (h : Leads style.span x v e keys) (hsafe : style.nullSafe = true) (name : String) :
    Leads style.span x v (style.field e name) (keys ++ [name]) :=
  h.access (hsafe ▸ style.isAccess_field e name)

theorem element (h : Leads style.span x v e keys) (hsafe : style.nullSafe = true) {i : Nat}
    (hi : i < 2 ^ 53) : Leads style.span x v (style.element e i) (keys ++ [toString i]) := by
  have htext : toString i = (Double.ofNat i).text := (Double.text_ofNat hi).symm
  rw [htext]
  exact h.access (hsafe ▸ style.isAccess_element e i)

end Leads

/-- A capture and a selected path with the same name that read the same. -/
def Capture.Follows (span : Span) (x : String) (v : Value) (c : Capture) (p : SelectedPath) : Prop :=
  c.name = p.name ∧ Leads span x v c.value p.keys

namespace Pattern

variable {x : String} {v : Value} {style : AccessStyle}

mutual

/-- A pattern's captures follow the paths that it selects. -/
theorem captures_follow (hsafe : style.nullSafe = true) : ∀ (p : Pattern), p.isShort = true →
    ∀ {e : Expr} {keys : List String}, Leads style.span x v e keys →
      List.Forall₂ (Capture.Follows style.span x v) (p.captures style e) (p.paths keys)
  | literal _, _, _, _, _ | typeTag _, _, _, _, _ | wildcard, _, _, _, _ | not _, _, _, _, _
  | when _, _, _, _, _ | set _, _, _, _, _ | map _ _, _, _, _, _ => by
    rw [captures, paths]
    exact .nil
  | array elements, hshort, e, keys, h => by
    rw [isShort, Bool.and_eq_true, decide_eq_true_iff] at hshort
    rw [captures, paths]
    exact elementCaptures_follow hsafe elements hshort.2 (by omega) h
  | object fields, hshort, e, keys, h => by
    rw [isShort] at hshort
    rw [captures, paths]
    exact fieldCaptures_follow hsafe fields hshort h
  | select s, hshort, e, keys, h => by
    rw [isShort] at hshort
    rw [captures, paths]
    exact .cons ⟨rfl, h⟩ (innerCaptures_follow hsafe s hshort h)

theorem elementCaptures_follow (hsafe : style.nullSafe = true) : ∀ (ps : List Pattern) {i : Nat},
    listIsShort ps = true → i + ps.length < 2 ^ 53 →
    ∀ {e : Expr} {keys : List String}, Leads style.span x v e keys →
      List.Forall₂ (Capture.Follows style.span x v) (elementCaptures style e i ps)
        (elementPaths keys i ps)
  | [], _, _, _, e, keys, h => by
    rw [elementCaptures, elementPaths]
    exact .nil
  | p :: ps, i, hshort, hi, e, keys, h => by
    rw [listIsShort, Bool.and_eq_true] at hshort
    rw [List.length_cons] at hi
    rw [elementCaptures, elementPaths]
    exact List.rel_append (captures_follow hsafe p hshort.1 (h.element hsafe (by omega)))
      (elementCaptures_follow hsafe ps hshort.2 (by omega) h)

theorem fieldCaptures_follow (hsafe : style.nullSafe = true) : ∀ (fs : List FieldPattern),
    fieldsAreShort fs = true → ∀ {e : Expr} {keys : List String}, Leads style.span x v e keys →
      List.Forall₂ (Capture.Follows style.span x v) (fieldCaptures style e fs) (fieldPaths keys fs)
  | [], _, e, keys, h => by
    rw [fieldCaptures, fieldPaths]
    exact .nil
  | ⟨name, p⟩ :: fs, hshort, e, keys, h => by
    rw [fieldsAreShort, Bool.and_eq_true] at hshort
    rw [fieldCaptures, fieldPaths]
    exact List.rel_append (captures_follow hsafe p hshort.1 (h.field hsafe name))
      (fieldCaptures_follow hsafe fs hshort.2 h)

theorem innerCaptures_follow (hsafe : style.nullSafe = true) : ∀ (s : Select),
    innerIsShort s = true → ∀ {e : Expr} {keys : List String}, Leads style.span x v e keys →
      List.Forall₂ (Capture.Follows style.span x v) (innerCaptures style e s) (innerPaths keys s)
  | ⟨_, _, none⟩, _, e, keys, h => by
    rw [innerCaptures, innerPaths]
    exact .nil
  | ⟨_, _, some p⟩, hshort, e, keys, h => by
    rw [innerIsShort] at hshort
    rw [innerCaptures, innerPaths]
    exact captures_follow hsafe p hshort h

end

end Pattern

/-! ## Argument lists -/

theorem PropKey.named_eq (name : String) : named name = .ident name ∨ named name = .str name := by
  unfold named
  split
  · exact .inl rfl
  · exact .inr rfl

namespace Capture

variable {span : Span} {x : String} {v : Value} {cs : List Capture} {ps : List SelectedPath}

/-- The properties of the object that captures become. -/
def properties (span : Span) (cs : List Capture) : List Property :=
  cs.filterMap fun c => c.name.map fun name => .init span (.named name) c.value false

theorem limit_properties (h : List.Forall₂ (Follows span x v) cs ps) : ∀ (fs : Fields) (m : Machine),
    m.lookup? x = some v → limit (fun n => (properties span cs).foldlM (prop n) fs) m
      = Outcome.ofRun? ((selectedFields span v fs ps).run.run m) := by
  induction h with
  | nil => exact fun fs m _ => limit_const _ m
  | @cons c p cs ps hcp _ ih =>
    intro fs m hm
    obtain ⟨hname, hleads⟩ := hcp
    rw [selectedFields, ← hname]
    cases hc : c.name with
    | none =>
      have hskip : properties span (c :: cs) = properties span cs := by
        simp [properties, hc]
      rw [hskip]
      exact ih fs m hm
    | some name =>
      have hcons : properties span (c :: cs)
          = .init span (.named name) c.value false :: properties span cs := by
        simp [properties, hc]
      obtain ⟨u, m', hs, hrun⟩ := run_follow span p.keys v m
      rw [hcons, limit_props_cons, limit_prop_init (PropKey.named_eq name), hleads.reads m hm, ofRun?_bind, hrun]
      exact ih (fs.set name u) m' (by rw [hs.lookup?, hm])

theorem run_selectedFields (fs : Fields) (ps : List SelectedPath) : ∀ m : Machine,
    ∃ fs' m', m.Spawned m' ∧ (selectedFields span v fs ps).run.run m = (.ok fs', m') := by
  induction ps generalizing fs with
  | nil => exact fun m => ⟨fs, m, .refl m, rfl⟩
  | cons p ps ih =>
    intro m
    rw [selectedFields]
    cases p.name with
    | none => exact ih fs m
    | some name =>
      obtain ⟨u, m', hs, hrun⟩ := run_follow span p.keys v m
      obtain ⟨fs', m'', hs', hrest⟩ := ih (fs.set name u) m'
      exact ⟨fs', m'', hs.trans hs', by rw [run_bind_ok hrun]; exact hrest⟩

/-- One argument before a name. -/
theorem limit_args_before {e : Expr} {act : Eval Value} {m : Machine}
    (hplain : ∀ span inner, e ≠ .spread span inner)
    (he : limit (expr · e) m = Outcome.ofRun? (act.run.run m))
    (hkept : ∀ u m', act.run.run m = (.ok u, m') → m'.lookup? x = some v) (inner : Span) :
    limit (args · [e, .ident inner x]) m
      = Outcome.ofRun? ((do return [← act] ++ [v] : Eval (List Value)).run.run m) := by
  rw [limit_args_cons hplain, he, ofRun?_bind]
  rcases hact : act.run.run m with ⟨(_ | _) | u, m'⟩
  · rfl
  · rfl
  · simp only [Outcome.ofRun?, Option.bind_some, andThen_ok]
    rw [limit_args_cons (e := .ident inner x) (by rintro _ _ ⟨⟩), limit_expr_ident (hkept u m' hact)]
    simp only [Option.bind_some, andThen_ok, limit_args_nil]
    rfl

/-- The object that captures become, before a name. -/
theorem limit_args_object (h : List.Forall₂ (Follows span x v) cs ps) (inner : Span) (m : Machine)
    (hm : m.lookup? x = some v) :
    limit (args · [.object span (properties span cs), .ident inner x]) m
      = Outcome.ofRun? ((do
          return [← newObject (← selectedFields span v [] ps)] ++ [v] : Eval (List Value)).run.run m) := by
  obtain ⟨fs, m', hs, hrun⟩ : ∃ fs m', m.Spawned m' ∧
      (selectedFields span v [] ps).run.run m = (.ok fs, m') := run_selectedFields [] ps m
  have hobject : limit (expr · (.object span (properties span cs))) m
      = Outcome.ofRun? ((selectedFields span v [] ps >>= newObject).run.run m) := by
    rw [limit_expr_object, limit_properties h [] m hm, ofRun?_bind]
  rw [limit_args_before (x := x) (v := v) (e := .object span _) nofun hobject]
  · simp
  · intro u m'' hact
    rw [run_bind_ok hrun, run_newObject] at hact
    cases hact
    exact (hs.lookup? x).trans hm

/-- The selection that generated code passes, with the subject after it. -/
theorem limit_arguments (h : List.Forall₂ (Follows span x v) cs ps) (inner : Span) (m : Machine)
    (hm : m.lookup? x = some v) :
    limit (args · ((value? span cs).toList ++ [.ident inner x])) m
      = Outcome.ofRun? ((do return (← selection span v ps) ++ [v] : Eval (List Value)).run.run m) := by
  have hobject := limit_args_object h inner m hm
  have hmany : value? span cs = some (.object span (properties span cs)) →
      selection span v ps = (do return [← newObject (← selectedFields span v [] ps)]) →
      limit (args · ((value? span cs).toList ++ [.ident inner x])) m = Outcome.ofRun?
        ((do return (← selection span v ps) ++ [v] : Eval (List Value)).run.run m) := by
    intro hvalue hselection
    rw [hvalue, hselection]
    simpa using hobject
  cases h with
  | nil =>
    show limit (args · [.ident inner x]) m = _
    rw [limit_args_cons (e := .ident inner x) (by rintro _ _ ⟨⟩), limit_expr_ident hm]
    simp only [Option.bind_some, andThen_ok, limit_args_nil]
    rfl
  | @cons c p cs ps hcp hrest =>
    obtain ⟨name, e⟩ := c
    obtain ⟨pname, keys⟩ := p
    obtain ⟨rfl, hleads⟩ : name = pname ∧ Leads span x v e keys := hcp
    cases hrest with
    | nil =>
      cases name with
      | none =>
        have hone : selection span v [⟨none, keys⟩] = do return [← follow span v keys] := rfl
        have hbefore := limit_args_before (x := x) (v := v) hleads.isPlain (hleads.reads m hm)
          (fun u m' hrun => ?_) inner
        · show limit (args · [e, .ident inner x]) m = _
          rw [hone]
          simpa using hbefore
        obtain ⟨w, m'', hs, hfollow⟩ := run_follow span keys v m
        rw [hfollow] at hrun
        cases hrun
        rw [hs.lookup?, hm]
      | some name => exact hmany rfl rfl
    | cons => cases name <;> exact hmany rfl rfl

end Capture

end MatchChain
