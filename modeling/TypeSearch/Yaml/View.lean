/-!
How much of a text has come into view. A text is looked at in pieces of at most 512 bytes, each when
something in it is needed, and only a piece that has come into view must be free of control
characters.
-/

namespace TypeSearch.Yaml

def isAllowed (c : Char) : Bool :=
  let code := c.toNat
  c == '\t' || c == '\n' || c == '\r' || 0x20 ≤ code && code ≤ 0x7E || code == 0x85 ||
    0xA0 ≤ code && code ≤ 0xFFFD || 0x10000 ≤ code

def byteOrderMark : Char := '\ufeff'

structure Piece where
  stop : Nat
  clean : Bool
  deriving Repr, Inhabited

namespace Piece

def size : Nat := 512

/-- Cuts a text into pieces. `space` is the number of bytes that still fit into `last`. -/
def cut : List Char → (space : Nat) → (last : Piece) → List Piece
  | [], _, last => [last]
  | c :: chars, space, last =>
    if c.utf8Size ≤ space then
      cut chars (space - c.utf8Size) ⟨last.stop + 1, last.clean && isAllowed c⟩
    else last :: cut chars (size - c.utf8Size) ⟨last.stop + 1, isAllowed c⟩

end Piece

structure View where
  reach : Nat := 0
  pieces : List Piece
  marked : Bool := false
  deriving Repr, Inhabited

namespace View

def take (need : Nat) : List Piece → (reach : Nat) → Option (List Piece × Nat)
  | [], reach => some ([], reach)
  | piece :: pieces, reach =>
    if need ≤ reach then some (piece :: pieces, reach)
    else if piece.clean then take need pieces piece.stop
    else none

/-- Brings `count` characters into view that start with `rest`, before which there are `index`. What
is before them goes out of view if anything new comes in. -/
def show? (view : View) (index count : Nat) (rest : List Char) : Option View :=
  if index + count ≤ view.reach then some view
  else
    (take (index + count) view.pieces view.reach).map fun (pieces, reach) =>
      { reach, pieces, marked := rest.head? == some byteOrderMark }

end View

end TypeSearch.Yaml
