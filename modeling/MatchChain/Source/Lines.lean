import MatchChain.Source.Span

/-!
# Lines and columns

A line table holds the byte offset at which each line of a source text starts. Lines end at a line
feed. Lines and columns count from one, and columns count characters. Like offsets they fit in 32 bits
(`clampOffset`).
-/

set_option autoImplicit false

namespace MatchChain

/-- Where each line starts, in increasing order; the first line starts at 0. -/
structure LineTable where
  starts : Array Nat

/-- What comes of looking for an offset among the line starts: the line that starts there, or how many
    start before it. -/
inductive LineLookup where
  | found (index : Nat)
  | missing (index : Nat)

namespace LineTable

/-- The offsets just after the line feeds of a text that starts at byte `at`. -/
def startsAfter (offset : Nat) : List Char → List Nat
  | [] => []
  | c :: cs =>
    let next := offset + c.utf8Size
    if c = '\n' then clampOffset next :: startsAfter next cs else startsAfter next cs

def build (source : String) : LineTable := ⟨(0 :: startsAfter 0 source.toList).toArray⟩

def count (t : LineTable) : Nat := t.starts.size

/-- Looks for an offset among the line starts from index `lo` up to `hi`, by halving. -/
def search (t : LineTable) (offset lo hi : Nat) : LineLookup :=
  if lo < hi then
    let middle := (lo + hi) / 2
    let start := t.starts.getD middle 0
    if start = offset then .found middle
    else if start < offset then t.search offset (middle + 1) hi
    else t.search offset lo middle
  else .missing lo
termination_by hi - lo
decreasing_by all_goals omega

/-- The line that an offset lies on: the one that starts there, or else the last one that starts before it. -/
def lineAt (t : LineTable) (offset : Nat) : Nat :=
  match t.search offset 0 t.count with
  | .found index => clampOffset (index + 1)
  | .missing index => clampOffset (index - 1 + 1)

/-- The offset at which a line starts; a line that does not exist starts at 0. -/
def startOf (t : LineTable) (line : Nat) : Nat := t.starts.getD (line - 1) 0

/-- The line and column of an offset. An offset past the end is at the end, and one inside a
    character is in column 1. -/
def position (t : LineTable) (source : String) (offset : Nat) : Nat × Nat :=
  let line := t.lineAt offset
  let stop := min offset source.utf8ByteSize
  let column := ((Text.sliceBytes? (t.startOf line) stop source.toList).map List.length).getD 0
  (line, clampOffset (column + 1))

/-- The text of a line without its line end; empty for a line that does not exist. -/
def lineText (t : LineTable) (source : String) (line : Nat) : String :=
  if line = 0 ∨ t.count < line then ""
  else
    let stop := t.starts.getD line source.utf8ByteSize
    let text := (Text.sliceBytes? (t.startOf line) stop source.toList).getD []
    String.ofList (text.reverse.dropWhile (fun c => c == '\n' || c == '\r')).reverse

end LineTable

/-- The line and column of an offset in a source text. -/
def positionIn (source : String) (offset : Nat) : Nat × Nat :=
  (LineTable.build source).position source offset

end MatchChain
