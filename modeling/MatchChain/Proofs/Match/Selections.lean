import Mathlib.Data.List.Nodup
import Mathlib.Data.Option.Basic
import Mathlib.Data.Prod.Basic
import MatchChain.Proofs.Match.Clauses

/-!
# Selections by their places

A selection stands at a place of a pattern, which is the way to it from the whole pattern, at any
depth. What a clause may select is said here of the places: one selection and no name for it, or a
name for every selection and no name at two places. The check of a clause goes through a list of
selections and stops at the first fault; it accepts exactly the branches that are like this.
-/

set_option autoImplicit false

namespace MatchChain

variable {p : Pattern} {s : Select}

namespace Pattern

/-! ## Places -/

/-- The patterns directly inside a pattern, from left to right. -/
def children : Pattern → List Pattern
  | literal _ | typeTag _ | wildcard | when _ => []
  | array elements => elements
  | object fields => fields.map (·.pattern)
  | select s => s.inner.toList
  | not inner | set inner => [inner]
  | map key value => [key, value]

/-- The pattern at a place: each step goes to the child with that number. -/
def at? : (place : List Nat) → Pattern → Option Pattern
  | [], p => some p
  | i :: place, p => (p.children[i]?).bind (at? place)

/-- A selection stands at a place of the pattern. -/
def SelectsAt (p : Pattern) (place : List Nat) (s : Select) : Prop := p.at? place = some (.select s)

/-- A selection stands at a place below one of the patterns, whose number is the first step. -/
def SelectsBelow (ps : List Pattern) : (place : List Nat) → Select → Prop
  | [], _ => False
  | i :: place, s => ∃ p, ps[i]? = some p ∧ p.SelectsAt place s

/-- There is one selection, and it has no name. -/
def SelectsUnnamed (p : Pattern) : Prop :=
  ∃ place s, p.SelectsAt place s ∧ s.name = none ∧
    ∀ place' s', p.SelectsAt place' s' → place' = place

/-- Every selection has a name, and no two places have the same. -/
def SelectsByName (p : Pattern) : Prop :=
  (∀ place s, p.SelectsAt place s → s.name.isSome = true) ∧
    ∀ place place' s s', p.SelectsAt place s → p.SelectsAt place' s' → s.name = s'.name →
      place = place'

theorem selectsAt_nil : p.SelectsAt [] s ↔ p = .select s := by
  simp [SelectsAt, at?]

theorem selectsAt_cons {i : Nat} {place : List Nat} :
    p.SelectsAt (i :: place) s ↔ SelectsBelow p.children (i :: place) s := by
  simp [SelectsAt, at?, SelectsBelow, Option.bind_eq_some_iff]

/-- A pattern that is no selection itself selects what its children do. -/
theorem selectsAt_iff_below (h : ∀ s, p ≠ .select s) {place : List Nat} :
    p.SelectsAt place s ↔ SelectsBelow p.children place s := by
  cases place with
  | nil => exact selectsAt_nil.trans (iff_of_false (h s) id)
  | cons i place => exact selectsAt_cons

end Pattern

/-! ## A list of selections and their places -/

/-- The selections are listed one for each place at which one stands. -/
def ListsPlaces (StandsAt : List Nat → Select → Prop) (ss : List Select) : Prop :=
  ∃ sites : List (List Nat × Select), (sites.map Prod.fst).Nodup ∧ sites.map Prod.snd = ss ∧
    ∀ place s, StandsAt place s ↔ (place, s) ∈ sites

namespace ListsPlaces

variable {StandsAt : List Nat → Select → Prop} {ss : List Select}

theorem congr {StandsAt' : List Nat → Select → Prop} (h : ListsPlaces StandsAt ss)
    (hiff : ∀ place s, StandsAt' place s ↔ StandsAt place s) : ListsPlaces StandsAt' ss := by
  obtain ⟨sites, hnodup, hss, hsites⟩ := h
  exact ⟨sites, hnodup, hss, fun place s => (hiff place s).trans (hsites place s)⟩

theorem eq_nil_iff (h : ListsPlaces StandsAt ss) : ss = [] ↔ ∀ place s, ¬ StandsAt place s := by
  obtain ⟨sites, -, rfl, hsites⟩ := h
  rw [List.map_eq_nil_iff, List.eq_nil_iff_forall_not_mem, Prod.forall]
  simp only [hsites]

/-- A single selection stands at a single place. -/
theorem eq_singleton_iff (h : ListsPlaces StandsAt ss) :
    (∃ s, ss = [s] ∧ s.name = none) ↔
      ∃ place s, StandsAt place s ∧ s.name = none ∧ ∀ place' s', StandsAt place' s' → place' = place := by
  obtain ⟨sites, hnodup, rfl, hsites⟩ := h
  simp only [hsites]
  constructor
  · rintro ⟨s, hs, hname⟩
    obtain ⟨⟨place, s'⟩, rfl, rfl⟩ := List.map_eq_singleton_iff.mp hs
    refine ⟨place, s', List.mem_singleton_self _, hname, ?_⟩
    intro place' s'' hmem
    exact congrArg Prod.fst (List.mem_singleton.mp hmem)
  · rintro ⟨place, s, hmem, hname, honly⟩
    refine ⟨s, ?_, hname⟩
    -- all sites have the same place, and none is listed twice
    have hsame : sites.map Prod.fst = List.replicate sites.length place := by
      refine List.eq_replicate_iff.mpr ⟨List.length_map _, ?_⟩
      intro place' hplace'
      obtain ⟨⟨_, s'⟩, hsite, rfl⟩ := List.mem_map.mp hplace'
      exact honly _ s' hsite
    rw [hsame, List.nodup_replicate] at hnodup
    obtain ⟨site, rfl⟩ : ∃ site, sites = [site] := by
      refine List.length_eq_one_iff.mp ?_
      have := List.length_pos_of_mem hmem
      omega
    rw [← List.mem_singleton.mp hmem]
    rfl

/-- The names of the selections are different ones if no name is at two places. -/
theorem names_iff (h : ListsPlaces StandsAt ss) :
    (∃ labels : List String, ss.map (·.name) = labels.map some ∧ labels.Nodup) ↔
      (∀ place s, StandsAt place s → s.name.isSome = true) ∧
        ∀ place place' s s', StandsAt place s → StandsAt place' s' → s.name = s'.name → place = place' := by
  obtain ⟨sites, hnodup, rfl, hsites⟩ := h
  have hplaces := List.inj_on_of_nodup_map hnodup
  simp only [hsites, List.map_map]
  constructor
  · rintro ⟨labels, hlabels, hlabelsNodup⟩
    constructor
    · intro place s hmem
      have hname : s.name ∈ labels.map some := hlabels ▸ List.mem_map_of_mem hmem
      obtain ⟨label, -, hlabel⟩ := List.mem_map.mp hname
      exact hlabel ▸ rfl
    · intro place place' s s' hmem hmem' hname
      have hnames : (sites.map (fun site => site.2.name)).Nodup :=
        hlabels ▸ hlabelsNodup.map (Option.some_injective _)
      exact congrArg Prod.fst (List.inj_on_of_nodup_map hnames hmem hmem' hname)
  · rintro ⟨hsome, hdistinct⟩
    obtain ⟨labels, hlabels⟩ : ∃ labels : List String,
        labels.map some = sites.map (fun site => site.2.name) := by
      refine ⟨sites.map fun site => site.2.name.getD "", ?_⟩
      rw [List.map_map]
      refine List.map_congr_left fun site hsite => ?_
      obtain ⟨name, hname⟩ := Option.isSome_iff_exists.mp (hsome _ _ hsite)
      rw [Function.comp_apply, hname, Option.getD_some]
    refine ⟨labels, hlabels.symm, ?_⟩
    refine List.Nodup.of_map some (hlabels ▸ List.Nodup.map_on ?_ hnodup.of_map)
    intro site hsite site' hsite' hname
    exact hplaces hsite hsite' (hdistinct _ _ _ _ hsite hsite' hname)

end ListsPlaces

namespace Pattern

/-- The place with its first step one further to the right. -/
def nextChild : List Nat → List Nat
  | [] => []
  | i :: place => (i + 1) :: place

theorem nextChild_injective : Function.Injective nextChild := by
  intro place place' h
  cases place <;> cases place' <;> simp_all [nextChild]

theorem listsPlaces_nil : ListsPlaces (SelectsBelow []) [] := by
  refine ⟨[], .nil, rfl, ?_⟩
  intro place s
  cases place <;> simp [SelectsBelow]

/-- One more pattern in front moves the places below the others to the right. -/
theorem listsPlaces_cons {ps : List Pattern} {ss ts : List Select}
    (hp : ListsPlaces p.SelectsAt ss) (hps : ListsPlaces (SelectsBelow ps) ts) :
    ListsPlaces (SelectsBelow (p :: ps)) (ss ++ ts) := by
  obtain ⟨sites, hnodup, rfl, hsites⟩ := hp
  obtain ⟨sites', hnodup', rfl, hsites'⟩ := hps
  refine ⟨sites.map (Prod.map (0 :: ·) id) ++ sites'.map (Prod.map nextChild id), ?_, ?_, ?_⟩
  · rw [List.map_append, List.map_map, List.map_map, Prod.map_fst', Prod.map_fst',
      ← List.map_map, ← List.map_map]
    refine (hnodup.map (List.cons_injective)).append (hnodup'.map nextChild_injective) ?_
    intro place hplace hplace'
    obtain ⟨first, -, rfl⟩ := List.mem_map.mp hplace
    obtain ⟨later, -, hlater⟩ := List.mem_map.mp hplace'
    cases later <;> simp [nextChild] at hlater
  · simp [Function.comp_def]
  · intro place s
    simp only [List.mem_append, List.mem_map, Prod.exists, Prod.map_apply, id_eq, Prod.mk.injEq,
      exists_eq_right_right, ← hsites, ← hsites']
    rcases place with _ | ⟨_ | i, place⟩
    · refine iff_of_false id ?_
      rintro (⟨q, -, hq⟩ | ⟨q, hmem, hq⟩)
      · cases hq
      · cases q with
        | nil => exact hmem
        | cons => cases hq
    · constructor
      · rintro ⟨_, ⟨⟩, hp⟩
        exact .inl ⟨place, hp, rfl⟩
      · rintro (⟨q, hmem, hq⟩ | ⟨q, -, hq⟩)
        · cases hq
          exact ⟨p, rfl, hmem⟩
        · cases q <;> cases hq
    · constructor
      · intro hp
        exact .inr ⟨i :: place, hp, rfl⟩
      · rintro (⟨q, -, hq⟩ | ⟨q, hmem, hq⟩)
        · cases hq
        · cases q with
          | nil => cases hq
          | cons =>
            cases hq
            exact hmem

/-- A selection stands at the empty place, before those inside it. -/
theorem listsPlaces_select {ss : List Select}
    (h : ListsPlaces (SelectsBelow s.inner.toList) ss) :
    ListsPlaces (SelectsAt (.select s)) (s :: ss) := by
  obtain ⟨sites, hnodup, rfl, hsites⟩ := h
  have hinside : ∀ s', ([], s') ∉ sites := fun s' hmem => (hsites [] s').mpr hmem
  refine ⟨([], s) :: sites, ?_, rfl, ?_⟩
  · rw [List.map_cons, List.nodup_cons]
    refine ⟨?_, hnodup⟩
    intro hmem
    obtain ⟨⟨_, s'⟩, hsite, rfl⟩ := List.mem_map.mp hmem
    exact hinside s' hsite
  · intro place s'
    cases place with
    | nil => simp [selectsAt_nil, hinside, eq_comm]
    | cons i place => simp [selectsAt_cons, children, hsites]

mutual

/-- The selections of a pattern are listed one for each place. -/
theorem listsPlaces_selections : ∀ p : Pattern, ListsPlaces p.SelectsAt p.selections
  | literal _ | typeTag _ | wildcard | when _ => by
    rw [selections]
    exact listsPlaces_nil.congr fun _ _ => selectsAt_iff_below (by simp)
  | array elements => by
    rw [selections]
    exact (listsPlaces_listSelections elements).congr fun _ _ => selectsAt_iff_below (by simp)
  | object fields => by
    rw [selections]
    exact (listsPlaces_fieldSelections fields).congr fun _ _ => selectsAt_iff_below (by simp)
  | select s => by
    rw [selections]
    exact listsPlaces_select (listsPlaces_innerSelections s)
  | not inner | set inner => by
    rw [selections, ← List.append_nil inner.selections]
    exact (listsPlaces_cons (listsPlaces_selections inner) listsPlaces_nil).congr
      fun _ _ => selectsAt_iff_below (by simp)
  | map key value => by
    rw [selections, ← List.append_nil value.selections]
    exact (listsPlaces_cons (listsPlaces_selections key)
      (listsPlaces_cons (listsPlaces_selections value) listsPlaces_nil)).congr
      fun _ _ => selectsAt_iff_below (by simp)

theorem listsPlaces_listSelections : ∀ ps : List Pattern,
    ListsPlaces (SelectsBelow ps) (listSelections ps)
  | [] => by
    rw [listSelections]
    exact listsPlaces_nil
  | p :: ps => by
    rw [listSelections]
    exact listsPlaces_cons (listsPlaces_selections p) (listsPlaces_listSelections ps)

theorem listsPlaces_fieldSelections : ∀ fs : List FieldPattern,
    ListsPlaces (SelectsBelow (fs.map (·.pattern))) (fieldSelections fs)
  | [] => by
    rw [fieldSelections]
    exact listsPlaces_nil
  | ⟨_, p⟩ :: fs => by
    rw [fieldSelections]
    exact listsPlaces_cons (listsPlaces_selections p) (listsPlaces_fieldSelections fs)

theorem listsPlaces_innerSelections : ∀ s : Select,
    ListsPlaces (SelectsBelow s.inner.toList) (innerSelections s)
  | ⟨_, _, none⟩ => by
    rw [innerSelections]
    exact listsPlaces_nil
  | ⟨_, _, some p⟩ => by
    rw [innerSelections, ← List.append_nil p.selections]
    exact listsPlaces_cons (listsPlaces_selections p) listsPlaces_nil

end

end Pattern

/-! ## The check of a clause -/

namespace MatchNames

/-- **The check of the captures is exact.** A branch passes it if and only if nothing is selected at any
    depth, or there is a single alternative, and in it either one selection, without a name, or only
    selections with names, all of them different. -/
theorem captureFault?_exact (b : Branch) :
    captureFault? b = none ↔
      (∀ p ∈ b.patterns, ∀ place s, ¬ p.SelectsAt place s) ∨
        ∃ p, b.patterns = [p] ∧ (p.SelectsUnnamed ∨ p.SelectsByName) := by
  have hnone : b.selections = [] ↔ ∀ p ∈ b.patterns, ∀ place s, ¬ p.SelectsAt place s := by
    rw [Branch.selections, List.flatMap_eq_nil_iff]
    exact forall₂_congr fun p _ => p.listsPlaces_selections.eq_nil_iff
  rw [captureFault?_eq_none_iff, Branch.ValidCaptures, hnone, ← exists_and_right]
  refine or_congr_right (exists_congr fun p => and_congr_right fun hp => ?_)
  have hselections : b.selections = p.selections := by
    rw [Branch.selections, hp, List.flatMap_singleton]
  have hplaces := p.listsPlaces_selections
  rw [hselections, hplaces.eq_singleton_iff, hplaces.names_iff, Pattern.SelectsUnnamed,
    Pattern.SelectsByName]

end MatchNames

end MatchChain
