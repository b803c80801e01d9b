import TypeSearch.Yaml.Cursor

/-!
The texts of scalars: plain ones, quoted ones and indented blocks. A single line break inside plain
and quoted scalars reads as a space, and further breaks as themselves.
-/

namespace TypeSearch.Yaml

structure Gap where
  blanks : List Char := []
  first : List Char := []
  later : List Char := []
  broken : Bool := false

def Gap.text (gap : Gap) : List Char :=
  if gap.broken then
    if gap.first == ['\n'] then (if gap.later.isEmpty then [' '] else gap.later)
    else gap.first ++ gap.later
  else gap.blanks

/-- Reads blanks and breaks. `reject` says which blanks are errors where a line begins. -/
def readGap (reject : Cursor → Bool) : Nat → Gap → Cursor → Option (Gap × Cursor)
  | 0, gap, cursor => some (gap, cursor)
  | fuel + 1, gap, cursor =>
    match cursor.peek? with
    | some c =>
      if isBlank c then
        if gap.broken then
          if reject cursor then none else readGap reject fuel gap cursor.skip
        else readGap reject fuel { gap with blanks := gap.blanks ++ [c] } cursor.skip
      else if isBreak c then
        let (read, next) := cursor.readBreak
        if gap.broken then readGap reject fuel { gap with later := gap.later ++ read } next
        else readGap reject fuel { gap with blanks := [], first := read, broken := true } next
      else some (gap, cursor)
    | none => some (gap, cursor)

namespace Plain

def ends (inFlow : Bool) (cursor : Cursor) : Bool :=
  match cursor.peek? with
  | none => true
  | some c =>
    isBlank c || isBreak c || c == ':' && cursor.blankOrEndAt 1 ||
      inFlow && (c == ',' || c == '?' || c == '[' || c == ']' || c == '\x7b' || c == '\x7d')

def readPiece (inFlow : Bool) : Nat → List Char → Cursor → List Char × Cursor
  | 0, read, cursor => (read, cursor)
  | fuel + 1, read, cursor =>
    match cursor.peek? with
    | some c =>
      if ends inFlow cursor then (read, cursor)
      else readPiece inFlow fuel (c :: read) cursor.skip
    | none => (read, cursor)

structure Result where
  text : List Char
  stop : Mark
  broken : Bool
  cursor : Cursor

/-- Reads a plain scalar whose further lines are indented by `indent` at least. `read` is the text
so far, last character first, and `gap` what stands between it and the cursor. -/
def readFrom (size : Nat) (inFlow : Bool) (indent : Nat) :
    Nat → List Char → Mark → Gap → Cursor → Option Result
  | 0, read, stop, gap, cursor => some ⟨read.reverse, stop, gap.broken, cursor⟩
  | fuel + 1, read, stop, gap, cursor =>
    if cursor.atDocumentMarker || cursor.peek? == some '#' then
      some ⟨read.reverse, stop, gap.broken, cursor⟩
    else
      let starts := !ends inFlow cursor
      let (read, next) :=
        if starts then
          readPiece inFlow size (gap.text.reverse ++ read) cursor
        else (read, cursor)
      let stop := if starts then next.mark else stop
      let gap := if starts then {} else gap
      if !(next.test 0 fun c => isBlank c || isBreak c) then
        some ⟨read.reverse, stop, gap.broken, next⟩
      else do
        let reject (place : Cursor) : Bool := place.column < indent && place.test 0 (· == '\t')
        let (gap, next) ← readGap reject size gap next
        if !inFlow && next.column < indent then
          some ⟨read.reverse, stop, gap.broken, next⟩
        else readFrom size inFlow indent fuel read stop gap next

def read (size : Nat) (inFlow : Bool) (indent : Nat) (cursor : Cursor) : Option Result :=
  readFrom size inFlow indent (size + 1) [] cursor.mark {} cursor

end Plain

namespace Quoted

def hexDigit? (c : Char) : Option Nat :=
  if c.isDigit then some (c.toNat - '0'.toNat)
  else if 'a' ≤ c ∧ c ≤ 'f' then some (c.toNat - 'a'.toNat + 10)
  else if 'A' ≤ c ∧ c ≤ 'F' then some (c.toNat - 'A'.toNat + 10)
  else none

def hexValue? (digits : List Char) : Option Nat :=
  digits.foldlM (fun value c => (hexDigit? c).map (value * 16 + ·)) 0

def simpleEscape? : Char → Option Char
  | '0' => some '\x00'
  | 'a' => some '\x07'
  | 'b' => some '\x08'
  | 't' => some '\t'
  | '\t' => some '\t'
  | 'n' => some '\n'
  | 'v' => some '\x0b'
  | 'f' => some '\x0c'
  | 'r' => some '\r'
  | 'e' => some '\x1b'
  | ' ' => some ' '
  | '"' => some '"'
  | '\x27' => some '\x27'
  | '\\' => some '\\'
  | 'N' => some '\u0085'
  | '_' => some '\u00a0'
  | 'L' => some '\u2028'
  | 'P' => some '\u2029'
  | _ => none

def escapeLength? : Char → Option Nat
  | 'x' => some 2
  | 'u' => some 4
  | 'U' => some 8
  | _ => none

def readEscape (cursor : Cursor) : Option (Char × Cursor) := do
  let c ← cursor.rest[1]?
  match simpleEscape? c with
  | some meant => return (meant, cursor.skipMany 2)
  | none =>
    let length ← escapeLength? c
    let digits := (cursor.rest.drop 2).take length
    let value ← hexValue? digits
    if digits.length < length ∨ 0xD800 ≤ value ∧ value ≤ 0xDFFF ∨ 0x10FFFF < value then none
    else return (Char.ofNat value, cursor.skipMany (2 + length))

/-- Reads the next piece without blanks, last character first, and whether it ends with an escaped
line break. -/
def readPiece (quote : Char) : Nat → List Char → Cursor → Option (List Char × Bool × Cursor)
  | 0, read, cursor => some (read, false, cursor)
  | fuel + 1, read, cursor =>
    match cursor.peek? with
    | none => some (read, false, cursor)
    | some c =>
      if isBlank c || isBreak c then some (read, false, cursor)
      else if quote == '\x27' then
        if c == '\x27' then
          if cursor.test 1 (· == '\x27') then
            readPiece quote fuel ('\x27' :: read) (cursor.skipMany 2)
          else some (read, false, cursor)
        else readPiece quote fuel (c :: read) cursor.skip
      else if c == '"' then some (read, false, cursor)
      else if c == '\\' then
        if cursor.test 1 isBreak then some (read, true, cursor.skip.readBreak.2)
        else do
          let (meant, next) ← readEscape cursor
          readPiece quote fuel (meant :: read) next
      else readPiece quote fuel (c :: read) cursor.skip

def readFrom (size : Nat) (quote : Char) : Nat → List Char → Cursor → Option (List Char × Cursor)
  | 0, _, _ => none
  | fuel + 1, read, cursor =>
    if cursor.atDocumentMarker || cursor.atEnd then none
    else do
      let (read, escapedBreak, next) ← readPiece quote size read cursor
      if next.peek? == some quote then return (read.reverse, next.skip)
      let (gap, next) ← readGap (fun _ => false) size { broken := escapedBreak } next
      readFrom size quote fuel (gap.text.reverse ++ read) next

/-- Reads a scalar that starts with the quote under the cursor; `size` bounds the number of
characters. -/
def read (size : Nat) (quote : Char) (cursor : Cursor) : Option (List Char × Cursor) :=
  readFrom size quote (size + 1) [] cursor.skip

end Quoted

namespace Block

inductive Chomp where
  | strip | clip | keep
  deriving DecidableEq

def chomp? : Char → Option Chomp
  | '-' => some .strip
  | '+' => some .keep
  | _ => none

/-- Reads the marks after the indicator: how to end the block, and its indentation if given. -/
def readHeader (cursor : Cursor) : Option (Chomp × Option Nat × Cursor) := do
  let digit? (place : Cursor) : Option Nat :=
    place.peek?.bind fun c => if c.isDigit then some (c.toNat - '0'.toNat) else none
  let chompAt (place : Cursor) : Option Chomp := place.peek?.bind chomp?
  match chompAt cursor, digit? cursor with
  | some chomp, _ =>
    match digit? cursor.skip with
    | some 0 => none
    | some digit => return (chomp, some digit, cursor.skipMany 2)
    | none => return (chomp, none, cursor.skip)
  | none, some 0 => none
  | none, some digit =>
    match chompAt cursor.skip with
    | some chomp => return (chomp, some digit, cursor.skipMany 2)
    | none => return (.clip, some digit, cursor.skip)
  | none, none => return (.clip, none, cursor)

/-- Reads indentation and empty lines. Without a known indentation the deepest line counts. -/
def readEmpty (indent : Option Nat) :
    Nat → (deepest : Nat) → List Char → Cursor → Option (Nat × List Char × Cursor)
  | 0, deepest, breaks, cursor => some (deepest, breaks, cursor)
  | fuel + 1, deepest, breaks, cursor =>
    let within (place : Cursor) : Bool := indent.all (place.column < ·)
    if within cursor && cursor.test 0 (· == ' ') then
      readEmpty indent fuel deepest breaks cursor.skip
    else
      let deepest := max deepest cursor.column
      if within cursor && cursor.test 0 (· == '\t') then none
      else if cursor.test 0 isBreak then
        let (read, next) := cursor.readBreak
        readEmpty indent fuel deepest (breaks ++ read) next
      else some (deepest, breaks, cursor)

structure Lines where
  text : List Char := []
  first : List Char := []
  later : List Char := []
  afterBlank : Bool := false

def readLines (size : Nat) (literal : Bool) (indent : Nat) :
    Nat → Lines → Cursor → Option (Lines × Cursor)
  | 0, lines, cursor => some (lines, cursor)
  | fuel + 1, lines, cursor =>
    if cursor.column != indent || cursor.atEnd then some (lines, cursor)
    else do
      let blank := cursor.test 0 isBlank
      let joined :=
        if !literal && !lines.afterBlank && !blank && lines.first == ['\n'] then
          (if lines.later.isEmpty then [' '] else [])
        else lines.first
      let (content, next) := cursor.readAll fun _ => true
      let (first, next) := next.readBreak
      let (_, later, next) ← readEmpty (some indent) (size + 1) 0 [] next
      readLines size literal indent fuel
        { text := lines.text ++ joined ++ lines.later ++ content
          first
          later
          afterBlank := blank } next

/-- Reads a block scalar that starts with the indicator under the cursor, inside a collection with
the indentation `outer`; `size` bounds the number of characters. -/
def read (size : Nat) (literal : Bool) (outer : Int) (cursor : Cursor) :
    Option (List Char × Cursor) := do
  let (chomp, given, next) ← readHeader cursor.skip
  let (_, next) := next.readAll isBlank
  let next := if next.peek? == some '#' then next.skipLine else next
  if !(next.atEnd || next.test 0 isBreak) then none
  else
    let next := next.readBreak.2
    let indent := given.map fun digit => if 0 ≤ outer then outer.toNat + digit else digit
    let (deepest, breaks, next) ← readEmpty indent (size + 1) 0 [] next
    let indent := indent.getD (max deepest (max (outer + 1).toNat 1))
    let (lines, next) ← readLines size literal indent (size + 1) { later := breaks } next
    let text := match chomp with
      | .strip => lines.text
      | .clip => lines.text ++ lines.first
      | .keep => lines.text ++ lines.first ++ lines.later
    return (text, next)

end Block

end TypeSearch.Yaml
