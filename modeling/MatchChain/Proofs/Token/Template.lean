import MatchChain.Token.Template

/-!
# What the scan of a template literal reads

A raw template literal has one spelling: its first text, then each hole in its braces with the text
after it. The scan reads a literal exactly if each of its texts and codes takes it from the start of the
piece to the place where the next one or the closing backtick comes (`read?_eq_some_iff`).

`Passes` is a run of the scan inside one piece. A step of it looks at one more character at most, so what
comes after the piece matters only by its first character, and the holes around do not matter at all.
-/

set_option autoImplicit false

namespace MatchChain.RawTemplate

/-- Holes and the texts after them as they are written. -/
def tailChars : List (List Char × List Char) → List Char
  | [] => []
  | (code, text) :: rest => '$' :: '{' :: (code ++ '}' :: (text ++ tailChars rest))

/-- The literal as it is written between its backticks. -/
def chars (raw : RawTemplate) : List Char := raw.head ++ tailChars raw.tail

variable {mode mode' mode'' : Mode} {stack stack' stack'' : List Nat} {c : Char} {cs ds rest : List Char}
  {extra : Nat} {next : Option Char} {raw : RawTemplate}

/-! ## One step -/

/-- In code there is a hole around. -/
def Inside (mode : Mode) (stack : List Nat) : Prop := mode = .text ∨ stack ≠ []

theorem Inside.not_ended (h : Inside mode stack) : ¬ (mode = .code ∧ stack = []) := by
  rintro ⟨rfl, rfl⟩
  exact h.elim (by rintro ⟨⟩) fun hne => hne rfl

/-- A step to here neither ends the literal nor enters or leaves one of its holes. -/
structure Stays (stack : List Nat) (mode' : Mode) (stack' : List Nat) : Prop where
  same : stack = [] ↔ stack' = []
  inside : Inside mode' stack'

/-- A step stays in its piece, or it closes the literal, opens a hole of it or closes one. -/
theorem step_cases (h : step mode stack c next = some (extra, mode', stack')) (hinside : Inside mode stack) :
    Stays stack mode' stack' ∨
      mode = .text ∧ stack = [] ∧ (c = '\x60' ∧ mode' = .code ∧ stack' = [] ∨
        c = '$' ∧ next = some '{' ∧ extra = 1 ∧ mode' = .code ∧ stack' = [0]) ∨
      mode = .code ∧ stack = [0] ∧ c = '}' ∧ extra = 0 ∧ mode' = .text ∧ stack' = [] := by
  cases mode with
  | code =>
    obtain ⟨depth, stack, rfl⟩ : ∃ depth rest, stack = depth :: rest := List.exists_cons_of_ne_nil (by grind [Inside])
    have hcode : stepInCode (depth :: stack) c next = (extra, mode', stack') := Option.some.inj h
    cases depth <;> grind [stepInCode, Stays, Inside, List.modifyHead_cons]
  | text | string | lineComment | blockComment =>
    simp only [step] at h
    repeat' split at h
    all_goals cases h
    all_goals grind [Stays, Inside]

/-- Most characters of code mean nothing to the scan. -/
theorem step_code (hc : c ∉ ['{', '}', '"', '\'', '\x60']) (hslash : c = '/' → next ∉ [some '/', some '*']) :
    step .code stack c next = some (0, .code, stack) := by
  obtain ⟨hopen, hclose, hquote, hapostrophe, htick⟩ : c ≠ '{' ∧ c ≠ '}' ∧ c ≠ '"' ∧ c ≠ '\'' ∧ c ≠ '\x60' := by
    simpa using hc
  have hcomment : ¬ (c = '/' ∧ next = some '/') ∧ ¬ (c = '/' ∧ next = some '*') := by grind
  simp [step, stepInCode, hopen, hclose, hquote, hapostrophe, htick, hcomment]

/-- The characters that may mean something to the scan in code. -/
def marks : List Char := ['{', '}', '"', '\'', '\x60', '/']

/-- A character that means nothing to the scan in code. -/
def isIdle (c : Char) : Bool := !marks.contains c

theorem isIdle_of {p : Char → Bool} (h : p c = true) (hmarks : marks.all (fun c => !p c) = true) : isIdle c = true := by
  cases hidle : isIdle c with
  | true => rfl
  | false =>
    have hmem : c ∈ marks := by simpa [isIdle] using hidle
    have hnot := List.all_eq_true.mp hmarks c hmem
    rw [h] at hnot
    cases hnot

/-- Holes around do not matter to a step. -/
theorem step_append (h : step mode stack c next = some (extra, mode', stack')) (hinside : Inside mode stack)
    (outer : List Nat) : step mode (stack ++ outer) c next = some (extra, mode', stack' ++ outer) := by
  cases mode with
  | code =>
    obtain ⟨depth, stack, rfl⟩ : ∃ depth rest, stack = depth :: rest := List.exists_cons_of_ne_nil (by grind [Inside])
    cases depth <;> grind [step, stepInCode, List.modifyHead_cons]
  | _ => grind [step]

/-! ## A run inside one piece -/

/-- The scan goes over the characters `cs` before the character `next`, all in one piece. -/
inductive Passes : Mode → List Nat → (cs : List Char) → (next : Option Char) → Mode → List Nat → Prop
  | nil {mode : Mode} {stack : List Nat} {next : Option Char} : Passes mode stack [] next mode stack
  | cons {mode mode' mode'' : Mode} {stack stack' stack'' : List Nat} {c : Char} {cs : List Char} {extra : Nat}
      {next : Option Char} : step mode stack c (cs.head?.or next) = some (extra, mode', stack') →
      extra ≤ cs.length → Stays stack mode' stack' → Passes mode' stack' (cs.drop extra) next mode'' stack'' →
      Passes mode stack (c :: cs) next mode'' stack''

namespace Passes

theorem append (h : Passes mode stack cs (ds.head?.or next) mode' stack')
    (h' : Passes mode' stack' ds next mode'' stack'') : Passes mode stack (cs ++ ds) next mode'' stack'' := by
  generalize hahead : ds.head?.or next = ahead at h
  induction h with
  | nil => exact h'
  | cons hstep hle hstays _ ih =>
    rw [List.cons_append]
    refine .cons ?_ (Nat.le_trans hle (List.length_append ▸ Nat.le_add_right _ _)) hstays ?_
    · rw [List.head?_append, Option.or_assoc, hahead, hstep]
    · rw [List.drop_append_of_le_length hle]
      exact ih h' hahead

/-- The scan goes one way only. -/
theorem rest_of_append (h : Passes mode stack (cs ++ ds) next mode'' stack'')
    (h' : Passes mode stack cs (ds.head?.or next) mode' stack') : Passes mode' stack' ds next mode'' stack'' := by
  generalize hahead : ds.head?.or next = ahead at h'
  induction h' with
  | nil => exact h
  | cons hstep hle _ _ ih =>
    rw [List.cons_append] at h
    cases h with
    | cons hstep' _ _ hrest =>
      rw [List.head?_append, Option.or_assoc, hahead, hstep] at hstep'
      cases hstep'
      rw [List.drop_append_of_le_length hle] at hrest
      exact ih hrest hahead

/-- Code is passed in the same way when its hole is inside others. -/
theorem enclosed (h : Passes mode stack cs next mode' stack') (hinside : Inside mode stack) {outer : List Nat}
    (houter : outer ≠ []) : Passes mode (stack ++ outer) cs next mode' (stack' ++ outer) := by
  induction h with
  | nil => exact .nil
  | cons hstep hle hstays _ ih =>
    refine .cons (step_append hstep hinside outer) hle ⟨?_, .inr ?_⟩ (ih hstays.inside) <;> simp [houter]

end Passes

/-! ## The whole literal -/

theorem grow_nil (stack : List Nat) (raw : RawTemplate) : raw.grow stack stack [] = raw := by
  unfold grow
  split <;> simp_all

/-- Only whether there is a hole around matters to what a step adds, and steps in one piece add up. -/
theorem grow_grow (h : stack = [] ↔ stack' = []) (raw : RawTemplate) :
    (raw.grow stack' stack' ds).grow stack stack' cs = raw.grow stack stack (cs ++ ds) := by
  obtain ⟨head, tail⟩ := raw
  cases stack <;> cases stack' <;> cases tail <;> simp_all [grow]

theorem scan_of_passes (h : Passes mode stack cs ds.head? mode' stack') :
    scan mode stack (cs ++ ds)
      = (scan mode' stack' ds).map fun (raw, rest) => (raw.grow stack stack cs, rest) := by
  generalize hahead : ds.head? = ahead at h
  induction h with
  | nil => simp [grow_nil]
  | @cons _ _ _ _ _ _ c cs extra _ hstep hle hstays _ ih =>
    rw [List.cons_append, scan, List.head?_append, hahead, hstep]
    simp only [if_neg hstays.inside.not_ended]
    rw [List.drop_append_of_le_length hle, ih hahead, List.take_append_of_le_length hle, Option.map_map]
    congr 1
    funext found
    simp only [Function.comp, grow_grow hstays.same, List.cons_append, List.take_append_drop]

/-- From a place of the scan on, each text and each code takes it to where the next piece or the closing
    backtick comes. In a hole the literal starts with the rest of that hole. -/
inductive Sound : Mode → List Nat → RawTemplate → Prop
  | last {mode : Mode} {text : List Char} : Passes mode [] text (some '\x60') .text [] → Sound mode [] ⟨text, []⟩
  | opens {mode : Mode} {text : List Char} {hole : List Char × List Char} {tail : List (List Char × List Char)} :
      Passes mode [] text (some '$') .text [] → Sound .code [0] ⟨[], hole :: tail⟩ →
      Sound mode [] ⟨text, hole :: tail⟩
  | closes {mode : Mode} {depth : Nat} {stack : List Nat} {code text : List Char}
      {tail : List (List Char × List Char)} : Passes mode (depth :: stack) code (some '}') .code [0] →
      Sound .text [] ⟨text, tail⟩ → Sound mode (depth :: stack) ⟨[], (code, text) :: tail⟩

/-- What is written from a place of the scan on, up to the closing backtick. -/
def charsFrom (stack : List Nat) (raw : RawTemplate) : List Char := if stack = [] then raw.chars else raw.chars.drop 2

theorem charsFrom_last (text : List Char) : charsFrom [] ⟨text, []⟩ = text := List.append_nil text

theorem charsFrom_opens (text : List Char) (hole : List Char × List Char) (tail : List (List Char × List Char)) :
    charsFrom [] ⟨text, hole :: tail⟩ = text ++ '$' :: '{' :: charsFrom [0] ⟨[], hole :: tail⟩ := rfl

theorem charsFrom_closes (depth : Nat) (stack : List Nat) (code text : List Char)
    (tail : List (List Char × List Char)) :
    charsFrom (depth :: stack) ⟨[], (code, text) :: tail⟩ = code ++ '}' :: charsFrom [] ⟨text, tail⟩ := rfl

theorem scan_backtick : scan .text [] ('\x60' :: rest) = some (⟨[], []⟩, rest) := by
  rw [scan]
  rfl

theorem scan_opening : scan .text [] ('$' :: '{' :: cs) = scan .code [0] cs := by
  rw [scan]
  exact Option.map_id'

theorem scan_closing : scan .code [0] ('}' :: cs)
    = (scan .text [] cs).map fun (raw, rest) => (⟨[], ([], raw.head) :: raw.tail⟩, rest) := by
  rw [scan]
  rfl

theorem scan_of_sound (h : Sound mode stack raw) (rest : List Char) :
    scan mode stack (raw.charsFrom stack ++ '\x60' :: rest) = some (raw, rest) := by
  induction h with
  | last htext =>
    rw [charsFrom_last, scan_of_passes htext, scan_backtick]
    simp [grow]
  | opens htext _ ih =>
    rw [charsFrom_opens, List.append_assoc, scan_of_passes htext, List.cons_append, List.cons_append, scan_opening, ih]
    simp [grow]
  | closes hcode _ ih =>
    rw [charsFrom_closes, List.append_assoc, scan_of_passes hcode, List.cons_append, scan_closing, ih]
    simp [grow]

theorem charsFrom_grow (hsound : Sound mode' stack' raw) (hsame : stack = [] ↔ stack' = []) (cs : List Char) :
    (raw.grow stack stack' cs).charsFrom stack = cs ++ raw.charsFrom stack' := by
  cases hsound <;> cases stack <;> simp_all [charsFrom, grow, chars, tailChars]

/-- A step before a place from which the literal is sound. -/
theorem Sound.step (h : Sound mode' stack' raw) {taken : List Char} (hstays : Stays stack mode' stack')
    (hstep : step mode stack c (taken ++ raw.charsFrom stack' ++ ['\x60']).head? = some (taken.length, mode', stack')) :
    Sound mode stack (raw.grow stack stack' (c :: taken)) := by
  have hpasses : ∀ {piece : List Char} {next : Char} {mode'' : Mode} {stack'' : List Nat} {later : List Char},
      raw.charsFrom stack' ++ ['\x60'] = piece ++ next :: later → 
      Passes mode' stack' piece (some next) mode'' stack'' →
      Passes mode stack (c :: (taken ++ piece)) (some next) mode'' stack'' := by
    intro piece next mode'' stack'' later hchars hpiece
    refine .cons ?_ (List.length_append ▸ Nat.le_add_right _ _) hstays ?_
    · rw [List.append_assoc, hchars] at hstep
      rw [← hstep]
      simp [List.head?_append]
    · rw [List.drop_left]
      exact hpiece
  cases h with
  | last htext =>
    obtain rfl := hstays.same.mpr rfl
    exact .last (hpasses (by simp [charsFrom, chars, tailChars]; rfl) htext)
  | opens htext hrest =>
    obtain rfl := hstays.same.mpr rfl
    exact .opens (hpasses (by simp [charsFrom, chars, tailChars]; rfl) htext) hrest
  | closes hcode hrest =>
    obtain ⟨depth, stack, rfl⟩ := List.exists_cons_of_ne_nil (mt hstays.same.mp (List.cons_ne_nil _ _))
    exact .closes (hpasses (by simp [charsFrom, chars, tailChars]; rfl) hcode) hrest

theorem sound_of_scan (h : scan mode stack cs = some (raw, rest)) (hinside : Inside mode stack) :
    Sound mode stack raw ∧ cs = raw.charsFrom stack ++ '\x60' :: rest := by
  fun_induction scan mode stack cs generalizing raw with
  | case1 => cases h
  | case2 => cases h
  | case3 mode stack c cs extra mode' stack' hstep hend =>
    cases h
    rcases step_cases hstep hinside with hstays | ⟨rfl, rfl, ⟨rfl, -⟩ | ⟨-, -, -, -, rfl⟩⟩ | ⟨-, -, -, -, rfl, -⟩
    · exact absurd hend hstays.inside.not_ended
    · exact ⟨.last .nil, rfl⟩
    · cases hend.2
    · cases hend.1
  | case4 mode stack c cs extra mode' stack' hstep hgo ih =>
    obtain ⟨⟨found, after⟩, hscan, heq⟩ := Option.map_eq_some_iff.mp h
    cases heq
    rcases step_cases hstep hinside with
      hstays | ⟨rfl, rfl, ⟨-, hboth⟩ | ⟨rfl, hnext, rfl, rfl, rfl⟩⟩ | ⟨rfl, rfl, rfl, rfl, rfl, rfl⟩
    · obtain ⟨hsound, hcs⟩ := ih hscan hstays.inside
      have hsplit : cs = cs.take extra ++ (found.charsFrom stack' ++ '\x60' :: rest) := by
        rw [← hcs, List.take_append_drop]
      have htaken : (cs.take extra).length = extra := by
        have := congrArg List.length hcs
        simp only [List.length_drop, List.length_append, List.length_cons] at this
        rw [List.length_take]
        omega
      refine ⟨hsound.step hstays ?_, ?_⟩
      · rw [htaken, ← hstep]
        congr 1
        conv => rhs; rw [hsplit]
        simp [List.head?_append]
      · rw [charsFrom_grow hsound hstays.same, List.cons_append, List.cons_append, List.append_assoc, ← hsplit]
    · exact absurd hboth hgo
    · obtain ⟨hsound, hcs⟩ := ih hscan (.inr (List.cons_ne_nil _ _))
      obtain ⟨cs, rfl⟩ : ∃ tail, cs = '{' :: tail := List.head?_eq_some_iff.mp hnext
      cases hsound with
      | closes hcode hrest => exact ⟨.opens .nil (.closes hcode hrest), congrArg (['$', '{'] ++ ·) hcs⟩
    · obtain ⟨hsound, hcs⟩ := ih hscan (.inl rfl)
      exact ⟨.closes .nil hsound, congrArg ('}' :: ·) hcs⟩

/-- The scan reads exactly the sound literals, as they are written. -/
theorem read?_eq_some_iff : read? cs = some (raw, rest) ↔ Sound .text [] raw ∧ cs = raw.chars ++ '\x60' :: rest :=
  ⟨fun h => sound_of_scan h (.inl rfl), fun ⟨hsound, hcs⟩ => hcs ▸ scan_of_sound hsound rest⟩

theorem read?_eq (h : read? cs = some (raw, rest)) : cs = raw.chars ++ '\x60' :: rest :=
  (read?_eq_some_iff.mp h).2

end MatchChain.RawTemplate
