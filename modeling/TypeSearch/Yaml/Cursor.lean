/-!
A place in a text: what is left to read, and how far the reading has come. Lines and columns are
counted from 0, and columns count characters.
-/

namespace TypeSearch.Yaml

structure Mark where
  index : Nat := 0
  line : Nat := 0
  column : Nat := 0
  deriving DecidableEq, Repr, Inhabited

def isBreak (c : Char) : Bool :=
  c == '\n' || c == '\r' || c == '\u0085' || c == '\u2028' || c == '\u2029'

def isBlank (c : Char) : Bool := c == ' ' || c == '\t'

def isWord (c : Char) : Bool := c.isAlphanum || c == '_' || c == '-'

structure Cursor where
  rest : List Char
  mark : Mark := {}
  /-- The number of line breaks since the last character that is not blank. -/
  breaks : Nat := 0
  deriving Repr, Inhabited

namespace Cursor

def peek? (cursor : Cursor) : Option Char := cursor.rest.head?

def atEnd (cursor : Cursor) : Bool := cursor.rest.isEmpty

def column (cursor : Cursor) : Nat := cursor.mark.column

def skip (cursor : Cursor) : Cursor :=
  match cursor.rest with
  | [] => cursor
  | c :: rest =>
    { rest
      mark :=
        { cursor.mark with
          index := cursor.mark.index + 1
          column := cursor.mark.column + 1 }
      breaks := if isBlank c then cursor.breaks else 0 }

def skipMany (cursor : Cursor) : Nat → Cursor
  | 0 => cursor
  | count + 1 => cursor.skip.skipMany count

def newLine (cursor : Cursor) (rest : List Char) (length : Nat) : Cursor :=
  { rest
    mark := { index := cursor.mark.index + length, line := cursor.mark.line + 1, column := 0 }
    breaks := cursor.breaks + 1 }

def readBreak (cursor : Cursor) : List Char × Cursor :=
  match cursor.rest with
  | '\r' :: '\n' :: rest => (['\n'], cursor.newLine rest 2)
  | c :: rest =>
    let normal := if c == '\u2028' || c == '\u2029' then c else '\n'
    if isBreak c then ([normal], cursor.newLine rest 1) else ([], cursor)
  | [] => ([], cursor)

def test (cursor : Cursor) (offset : Nat) (property : Char → Bool) : Bool :=
  (cursor.rest[offset]?).any property

def blankOrEndAt (cursor : Cursor) (offset : Nat) : Bool :=
  (cursor.rest[offset]?).all fun c => isBlank c || isBreak c

def atMarker (cursor : Cursor) (c : Char) : Bool :=
  cursor.column == 0 && [0, 1, 2].all (cursor.test · (· == c)) && cursor.blankOrEndAt 3

def atDocumentMarker (cursor : Cursor) : Bool := cursor.atMarker '-' || cursor.atMarker '.'

def readAll (cursor : Cursor) (property : Char → Bool) : List Char × Cursor :=
  let read := cursor.rest.takeWhile fun c => property c && !isBreak c
  (read, cursor.skipMany read.length)

def skipLine (cursor : Cursor) : Cursor := (cursor.readAll fun _ => true).2

end Cursor

end TypeSearch.Yaml
