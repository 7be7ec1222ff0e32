import MatchChain.Token.Basic

/-!
# Cursors

A cursor is a place in a token list. Looking past the last token, the end of file, sees that token,
and advancing stops there.
-/

set_option autoImplicit false

namespace MatchChain

structure Cursor where
  tokens : Array Token
  pos : Nat := 0
deriving Inhabited

namespace Cursor

/-- The token at an index, or the last one if there is no such. -/
def tokenAt (c : Cursor) (i : Nat) : Token :=
  match c.tokens[i]? with
  | some t => t
  | none => c.tokens.back?.getD ⟨.eof, .none, false⟩

def current (c : Cursor) : Token := c.tokenAt c.pos

def kind (c : Cursor) : TokenKind := c.current.kind

/-- The token `n` places ahead. -/
def peek (c : Cursor) (n : Nat) : Token := c.tokenAt (c.pos + n)

/-- The span of the token before the current one. -/
def previousSpan (c : Cursor) : Span := if 0 < c.pos then (c.tokenAt (c.pos - 1)).span else .none

def check (c : Cursor) (k : TokenKind) : Bool := c.kind == k

def atEnd (c : Cursor) : Bool := c.kind == .eof

/-- One token further, unless at the end. -/
def advance (c : Cursor) : Cursor := if c.atEnd then c else { c with pos := c.pos + 1 }

/-- The index of the bracket that closes the one at `i`, where brackets of all kinds count alike.
    `depth` brackets are open before `i`, and `fuel` tokens are left to look at. -/
def closeFrom (c : Cursor) : (fuel depth i : Nat) → Option Nat
  | 0, _, _ => none
  | fuel + 1, depth, i =>
    let kind := (c.tokenAt i).kind
    if kind == .eof then none
    else if kind.isOpening then c.closeFrom fuel (depth + 1) (i + 1)
    else if kind.isClosing then
      match depth with
      | 0 => none
      | 1 => some i
      | d + 2 => c.closeFrom fuel (d + 1) (i + 1)
    else c.closeFrom fuel depth (i + 1)

/-- The index of the bracket that closes the one opened first from `i` on, if it is closed. -/
def matchingClose (c : Cursor) (i : Nat) : Option Nat := c.closeFrom (c.tokens.size - i) 0 i

/-- How many tokens are left, the end of file included. -/
def remaining (c : Cursor) : Nat := c.tokens.size - c.pos

end Cursor

end MatchChain
