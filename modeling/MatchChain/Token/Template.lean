/-!
# Finding the end of a template literal

Code inside `${` and `}` may hold braces, strings, comments and further template literals, so the end
of a template literal is found by a pushdown scan over the characters. The stack has one entry for
every hole the scan is inside of: the number of braces open in it. In template text the stack is that
of the enclosing holes, so it is empty exactly in the text of the literal itself.

The scan also splits the literal: what it passes with an empty stack belongs to a text, the rest to the
code of a hole.
-/

set_option autoImplicit false

namespace MatchChain

/-- A raw template literal: its first text, then each hole's code with the text after it. -/
structure RawTemplate where
  head : List Char
  tail : List (List Char × List Char)

namespace RawTemplate

/-- What the scan is inside of. -/
inductive Mode where
  | text
  | code
  | string (quote : Char)
  | lineComment
  | blockComment
deriving DecidableEq

/-- A step in code. A brace opens or closes a block of the code, or closes the hole. -/
def stepInCode (stack : List Nat) (c : Char) (next : Option Char) : Nat × Mode × List Nat :=
  if c = '{' then (0, .code, stack.modifyHead (· + 1))
  else if c = '}' then
    match stack with
    | [] => (0, .code, [])
    | 0 :: stack => (0, .text, stack)
    | (depth + 1) :: stack => (0, .code, depth :: stack)
  else if c = '"' ∨ c = '\'' then (0, .string c, stack)
  else if c = '\x60' then (0, .text, stack)
  else if c = '/' ∧ next = some '/' then (1, .lineComment, stack)
  else if c = '/' ∧ next = some '*' then (1, .blockComment, stack)
  else (0, .code, stack)

/-- One step of the scan at a character: how many more characters it takes, and where the scan is after
    it. A string must not go over the end of a line. A backtick in text leads back to the code around
    the literal, which is nowhere if the literal is not in a hole. -/
def step (mode : Mode) (stack : List Nat) (c : Char) (next : Option Char) : Option (Nat × Mode × List Nat) :=
  match mode with
  | .text =>
    if c = '\\' ∧ next.isSome then some (1, .text, stack)
    else if c = '\x60' then some (0, .code, stack)
    else if c = '$' ∧ next = some '{' then some (1, .code, 0 :: stack)
    else some (0, .text, stack)
  | .code => some (stepInCode stack c next)
  | .string quote =>
    if c = '\\' ∧ next.isSome then some (1, .string quote, stack)
    else if c = '\n' then none
    else some (0, if c = quote then .code else .string quote, stack)
  | .lineComment => some (0, if c = '\n' then .code else .lineComment, stack)
  | .blockComment =>
    if c = '*' ∧ next = some '/' then some (1, .code, stack) else some (0, .blockComment, stack)

/-- A step over the characters `cs` before what is found behind them. In text they belong to the first
    text, in a hole to the code of the first hole; a step into a hole or out of one passes a brace. -/
def grow (stack stack' : List Nat) (cs : List Char) (raw : RawTemplate) : RawTemplate :=
  match stack, stack', raw with
  | [], [], raw => { raw with head := cs ++ raw.head }
  | [], _ :: _, raw => raw
  | _ :: _, [], raw => ⟨[], ([], raw.head) :: raw.tail⟩
  | _ :: _, _ :: _, ⟨head, (code, text) :: tail⟩ => ⟨head, (cs ++ code, text) :: tail⟩
  | _ :: _, _ :: _, ⟨head, []⟩ => ⟨head, []⟩

/-- Scans on, or finds nothing when the text ends before the literal. The result is the literal from here
    on and what follows its closing backtick; in a hole the literal starts with that hole. -/
def scan (mode : Mode) (stack : List Nat) : List Char → Option (RawTemplate × List Char)
  | [] => none
  | c :: cs =>
    match step mode stack c cs.head? with
    | none => none
    | some (extra, mode', stack') =>
      if mode' = .code ∧ stack' = [] then some (⟨[], []⟩, cs)
      else
        (scan mode' stack' (cs.drop extra)).map fun (raw, rest) =>
          (raw.grow stack stack' (c :: cs.take extra), rest)
termination_by cs => cs.length
decreasing_by simp only [List.length_drop, List.length_cons]; omega

/-- Reads a template literal from just after its opening backtick. The result is the literal and what
    follows its closing backtick. -/
def read? (cs : List Char) : Option (RawTemplate × List Char) := scan .text [] cs

end RawTemplate

end MatchChain
