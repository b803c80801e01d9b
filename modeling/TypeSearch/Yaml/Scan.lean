import TypeSearch.Text.Bytes
import TypeSearch.Yaml.Comment
import TypeSearch.Yaml.Quoted
import TypeSearch.Yaml.Token
import TypeSearch.Yaml.View

/-!
Reading tokens. Indentation shows as tokens that open and close block collections. A key needs no
mark of its own: when a `:` follows something that may be a key, the key token is put in front of it
afterwards. Tokens are read when they are asked for, two ahead and further while the next one may
turn out to begin a key.
-/

namespace TypeSearch.Yaml

structure KeyCandidate where
  token : Nat := 0
  mark : Mark := {}
  possible : Bool := false
  required : Bool := false
  deriving Repr, Inhabited

structure Scan where
  cursor : Cursor
  view : View
  length : Nat
  queue : Queue := {}
  /-- The indentation of the innermost block collection, -1 outside. -/
  indent : Int := -1
  indents : List Int := []
  flowLevel : Nat := 0
  /-- The key candidate of each flow collection that is open, innermost first, then that of the
  block context. -/
  candidates : List KeyCandidate := [{}]
  /-- The numbers of tokens that wait for what comes of the candidate of a flow level. -/
  waiting : List (Nat × Nat) := []
  keyAllowed : Bool := true
  comments : List Comment := []
  deriving Inhabited

namespace Scan

def maxDepth : Nat := 10000

def inFlow (scan : Scan) : Bool := scan.flowLevel != 0

def see (scan : Scan) (count : Nat) : Option Scan :=
  (scan.view.show? scan.cursor.mark.index count scan.cursor.rest).map fun view =>
    { scan with view }

def emit (scan : Scan) (shape : Token.Shape) (start stop : Mark) : Scan :=
  { scan with queue := scan.queue.push ⟨shape, start, stop⟩ }

def emitHere (scan : Scan) (shape : Token.Shape) (length : Nat) : Scan :=
  let next := scan.cursor.skipMany length
  { scan.emit shape scan.cursor.mark next.mark with cursor := next }

def candidate (scan : Scan) : KeyCandidate := scan.candidates.headD {}

def setCandidate (scan : Scan) (candidate : KeyCandidate) : Scan :=
  { scan with candidates := candidate :: scan.candidates.tail }

def allowKey (scan : Scan) (allowed : Bool) : Scan := { scan with keyAllowed := allowed }

def release (scan : Scan) (number : Nat) : Scan :=
  { scan with waiting := scan.waiting.eraseP (·.1 == number) }

/-- Closes block collections that are indented more than a column. They end at `mark` or at comments
before it; `stop` is where the text without comments ends. -/
def unindentWithin (column : Int) : Nat → (stop : Int) → Mark → Scan → Scan
  | 0, _, _, scan => scan
  | fuel + 1, stop, mark, scan =>
    if scan.indent ≤ column then scan
    else
      let found := Comment.blockEnd scan.indent stop mark scan.comments
      let stop := if found = mark then stop else found.index
      let closed := scan.emit .blockEnd found found
      unindentWithin column fuel stop found
        { closed with indent := scan.indents.headD (-1), indents := scan.indents.tail }

def unindent (scan : Scan) (column : Int) (mark : Mark) : Scan :=
  if scan.inFlow then scan
  else unindentWithin column (scan.indents.length + 1) ((mark.index : Int) - 1) mark scan

/-- Opens a block collection at a column that is deeper than the current one; the opening token goes
before the token with a number. -/
def openBlock (scan : Scan) (shape : Token.Shape) (number : Nat) (mark : Mark) : Option Scan :=
  if scan.inFlow || (mark.column : Int) ≤ scan.indent then some scan
  else if maxDepth ≤ scan.indents.length then none
  else
    some { scan with
      queue := scan.queue.insert number ⟨shape, mark, mark⟩
      indent := mark.column
      indents := scan.indent :: scan.indents }

def dropCandidate (scan : Scan) : Option Scan :=
  let candidate := scan.candidate
  if !candidate.possible then some scan
  else if candidate.required then none
  else some ((scan.setCandidate { candidate with possible := false }).release candidate.token)

def saveCandidate (scan : Scan) : Option Scan :=
  if !scan.keyAllowed then some scan
  else do
    let scan ← scan.dropCandidate
    let number := scan.queue.nextNumber
    let saved := scan.setCandidate
      { token := number
        mark := scan.cursor.mark
        possible := true
        required := !scan.inFlow && scan.indent == scan.cursor.column }
    return { saved with waiting := (number, scan.flowLevel) :: saved.waiting }

/-- Whether a key candidate still is one: a key stands on one line and is not too long. A required
key must be one. -/
def isFresh (scan : Scan) (candidate : KeyCandidate) : Option Bool :=
  if !candidate.possible then some false
  else if candidate.mark.line < scan.cursor.mark.line ∨
      candidate.mark.index + 1024 < scan.cursor.mark.index then
    if candidate.required then none else some false
  else some true

/-- Reads the comments under the cursor. `origin` is where the last token ended. -/
def readComments (scan : Scan) (origin : Mark) : Scan :=
  let afterValue := scan.queue.last?.any (·.shape == .value)
  let (groups, cursor) :=
    Comment.read (2 * scan.length + 2) scan.indent scan.inFlow afterValue origin scan.cursor
  { scan with comments := groups ++ scan.comments, cursor }

/-- Skips blanks, comments and line breaks. Tabs are no blanks where a block line begins. While a
byte order mark is in view, the first character of a line is skipped. `origin` is where the last
token ended. -/
def skipToToken (origin : Mark) : Nat → (newLine : Bool) → Scan → Option Scan
  | 0, _, scan => some scan
  | fuel + 1, newLine, scan => do
    let scan ← scan.see 1
    if newLine && scan.cursor.column == 0 && scan.view.marked && !scan.cursor.atEnd then
      skipToToken origin fuel false { scan with cursor := scan.cursor.skip }
    else
      match scan.cursor.peek? with
      | none => return scan
      | some c =>
        if c == ' ' || c == '\t' && (scan.inFlow || !scan.keyAllowed) then
          skipToToken origin fuel false { scan with cursor := scan.cursor.skip }
        else
          let scan := if c == '#' then scan.readComments origin else scan
          if scan.cursor.test 0 isBreak then
            let scan ← scan.see 2
            skipToToken origin fuel true
              { scan with
                cursor := scan.cursor.readBreak.2
                keyAllowed := scan.keyAllowed || !scan.inFlow }
          else return scan

def isTagChar (c : Char) : Bool :=
  isWord c || ";/?:@&=+$,.!~*'()[]%".toList.contains c

def byteCount? (byte : Nat) : Option Nat :=
  if byte < 0x80 then some 1
  else if byte < 0xC0 then none
  else if byte < 0xE0 then some 2
  else if byte < 0xF0 then some 3
  else if byte < 0xF8 then some 4
  else none

/-- The bytes that a tag stands for: a percent sign and two digits stand for a byte, and `more` says
how many bytes the current character still has. -/
def tagBytes : (more : Nat) → List Char → Option (List UInt8)
  | 0, [] => some []
  | more, '%' :: a :: b :: rest => do
    let byte ← Quoted.hexValue? [a, b]
    let more ←
      if more = 0 then (byteCount? byte).map (· - 1)
      else if 0x80 ≤ byte ∧ byte < 0xC0 then some (more - 1)
      else none
    return byte.toUInt8 :: (← tagBytes more rest)
  | _, '%' :: _ => none
  | 0, c :: rest => do return c.toString.toUTF8.toList ++ (← tagBytes 0 rest)
  | _, _ => none

def readTagText (cursor : Cursor) : Option (String × Cursor) := do
  let (read, next) := cursor.readAll isTagChar
  return (Text.ofBytes (← tagBytes 0 read), next)

def readTag (cursor : Cursor) : Option (String × String × Cursor) := do
  let (handle, suffix, next) ←
    if cursor.test 1 (· == '<') then do
      let (suffix, next) ← readTagText (cursor.skipMany 2)
      if next.peek? == some '>' && !suffix.isEmpty then some ("", suffix, next.skip) else none
    else do
      let (word, next) := cursor.skip.readAll isWord
      if next.peek? == some '!' then do
        let (suffix, next) ← readTagText next.skip
        if suffix.isEmpty then none
        else some ("!" ++ String.ofList word ++ "!", suffix, next)
      else do
        let (more, next) ← readTagText next
        let suffix := String.ofList word ++ more
        if suffix.isEmpty then some ("", "!", next) else some ("!", suffix, next)
  if next.blankOrEndAt 0 then return (handle, suffix, next) else none

def readName (cursor : Cursor) : Option (String × Cursor) :=
  let (name, next) := cursor.skip.readAll isWord
  if name.isEmpty then none
  else if next.blankOrEndAt 0 || next.test 0 ("?:,]\x7d%@`".toList.contains ·) then
    some (String.ofList name, next)
  else none

def readDirective (cursor : Cursor) : Option (Token.Shape × Cursor) := do
  let number (place : Cursor) : Option (Nat × Cursor) :=
    let (digits, next) := place.readAll Char.isDigit
    if digits.isEmpty ∨ 2 < digits.length then none
    else some (digits.foldl (fun n c => n * 10 + (c.toNat - '0'.toNat)) 0, next)
  let blanks (place : Cursor) : Cursor := (place.readAll isBlank).2
  let (name, next) := cursor.skip.readAll isWord
  if !next.blankOrEndAt 0 then none
  let next := blanks next
  let (shape, next) ← match String.ofList name with
    | "YAML" => do
      let (major, next) ← number next
      if next.peek? != some '.' then none
      let (minor, next) ← number next.skip
      some (Token.Shape.version major minor, next)
    | "TAG" => do
      if next.peek? != some '!' then none
      let (word, next) := next.skip.readAll isWord
      let (closing, next) :=
        if next.peek? == some '!' then ("!", next.skip) else ("", next)
      if closing.isEmpty && !word.isEmpty || !next.test 0 isBlank then none
      let (expansion, next) ← readTagText (blanks next)
      if expansion.isEmpty || !next.blankOrEndAt 0 then none
      some (Token.Shape.tagShorthand ("!" ++ String.ofList word ++ closing) expansion, next)
    | _ => none
  let next := blanks next
  let next := if next.peek? == some '#' then next.skipLine else next
  if next.atEnd then return (shape, next)
  else if next.test 0 isBreak then return (shape, next.readBreak.2)
  else none

def marker (scan : Scan) : Option Scan := do
  let scan ← (scan.unindent (-1) scan.cursor.mark).dropCandidate
  return scan.allowKey false

def flowStart (scan : Scan) (shape : Token.Shape) : Option Scan := do
  let scan ← scan.saveCandidate
  if maxDepth ≤ scan.flowLevel then none
  else
    let opened :=
      { scan with
        flowLevel := scan.flowLevel + 1
        candidates := { token := scan.queue.nextNumber } :: scan.candidates }
    return (opened.allowKey true).emitHere shape 1

def flowEnd (scan : Scan) (shape : Token.Shape) : Option Scan := do
  let scan ← scan.dropCandidate
  let closed :=
    if scan.inFlow then
      { scan.release scan.candidate.token with
        flowLevel := scan.flowLevel - 1
        candidates := scan.candidates.tail }
    else scan
  return (closed.allowKey false).emitHere shape 1

def flowEntry (scan : Scan) : Option Scan := do
  let scan ← scan.dropCandidate
  return (scan.allowKey true).emitHere .flowEntry 1

def blockEntry (scan : Scan) : Option Scan := do
  if !scan.inFlow && !scan.keyAllowed then none
  else
    let opened ← scan.openBlock .blockSequenceStart scan.queue.nextNumber scan.cursor.mark
    let scan ← opened.dropCandidate
    return (scan.allowKey true).emitHere .blockEntry 1

def key (scan : Scan) : Option Scan := do
  if !scan.inFlow && !scan.keyAllowed then none
  else
    let opened ← scan.openBlock .blockMappingStart scan.queue.nextNumber scan.cursor.mark
    let scan ← opened.dropCandidate
    return (scan.allowKey (!scan.inFlow)).emitHere .key 1

def value (scan : Scan) : Option Scan := do
  let candidate := scan.candidate
  let ended := scan.setCandidate { candidate with possible := false }
  if ← scan.isFresh candidate then
    let keyed :=
      { ended with
        queue := ended.queue.insert candidate.token ⟨.key, candidate.mark, candidate.mark⟩ }
    let opened ← keyed.openBlock .blockMappingStart candidate.token candidate.mark
    return ((opened.release candidate.token).allowKey false).emitHere .value 1
  else if !scan.inFlow && !scan.keyAllowed then none
  else
    let opened ← ended.openBlock .blockMappingStart scan.queue.nextNumber scan.cursor.mark
    return (opened.allowKey (!scan.inFlow)).emitHere .value 1

/-- Emits a token that was read up to `next`, and that may begin a key. -/
def content (scan : Scan) (read : Cursor → Option (Token.Shape × Cursor)) : Option Scan := do
  let scan ← scan.saveCandidate
  let (shape, next) ← read scan.cursor
  return { (scan.allowKey false).emit shape scan.cursor.mark next.mark with cursor := next }

def plain (scan : Scan) : Option Scan := do
  let scan ← scan.saveCandidate
  let start := scan.cursor.mark
  let result ← Plain.read scan.length scan.inFlow (scan.indent + 1).toNat scan.cursor
  let shape := Token.Shape.scalar (String.ofList result.text) true
  return { (scan.allowKey result.broken).emit shape start result.stop with cursor := result.cursor }

def block (scan : Scan) (literal : Bool) : Option Scan := do
  let scan ← scan.dropCandidate
  let (text, next) ← Block.read scan.length literal scan.indent scan.cursor
  let shape := Token.Shape.scalar (String.ofList text) false
  return { (scan.allowKey true).emit shape scan.cursor.mark next.mark with cursor := next }

def startsPlain (scan : Scan) (c : Char) : Bool :=
  !(isBlank c || isBreak c || "-?:,[]\x7b\x7d#&*!|>\x27\"%@`".toList.contains c) ||
    c == '-' && !scan.cursor.test 1 isBlank ||
    !scan.inFlow && (c == '?' || c == ':') && !scan.cursor.blankOrEndAt 1

def token (scan : Scan) (c : Char) : Option Scan :=
  let blankNext := scan.cursor.blankOrEndAt 1
  let quoted (quote : Char) : Option Scan := scan.content fun cursor => do
    let (text, next) ← Quoted.read scan.length quote cursor
    return (.scalar (String.ofList text) false, next)
  if c == '[' then scan.flowStart .flowSequenceStart
  else if c == '\x7b' then scan.flowStart .flowMappingStart
  else if c == ']' then scan.flowEnd .flowSequenceEnd
  else if c == '\x7d' then scan.flowEnd .flowMappingEnd
  else if c == ',' then scan.flowEntry
  else if c == '-' && blankNext then scan.blockEntry
  else if c == '?' && (scan.inFlow || blankNext) then scan.key
  else if c == ':' && (scan.inFlow || blankNext) then scan.value
  else if c == '*' then scan.content fun cursor => do
    let (name, next) ← readName cursor
    return (.reference name, next)
  else if c == '&' then scan.content fun cursor => do
    let (name, next) ← readName cursor
    return (.anchor name, next)
  else if c == '!' then scan.content fun cursor => do
    let (handle, suffix, next) ← readTag cursor
    return (.tag handle suffix, next)
  else if c == '|' && !scan.inFlow then scan.block true
  else if c == '>' && !scan.inFlow then scan.block false
  else if c == '\x27' || c == '"' then quoted c
  else if scan.startsPlain c then scan.plain
  else none

/-- Emits the token that starts with the character `c` under the cursor, and reads a comment behind
it. A comment behind the sign of an entry belongs to what follows. -/
def tokenAndComment (scan : Scan) (c : Char) : Option Scan := do
  let scan ← scan.token c
  if scan.queue.last?.any (·.shape == .blockEntry) then return scan
  else return { scan with cursor := Comment.skipTrailing scan.cursor }

def finish (scan : Scan) : Option Scan := do
  let mark := scan.cursor.mark
  let mark : Mark := if mark.column = 0 then mark else ⟨mark.index, mark.line + 1, 0⟩
  let scan ← { scan with cursor := { scan.cursor with mark } }.marker
  return scan.emit .streamEnd mark mark

def fetch (scan : Scan) : Option Scan := do
  let origin := scan.cursor.mark
  let scan ← skipToToken origin (scan.length + 2) true { scan with comments := [] }
  let scan := scan.unindent scan.cursor.column origin
  let scan ← scan.see 4
  match scan.cursor.peek? with
  | none => scan.finish
  | some c =>
    if scan.cursor.column == 0 && c == '%' then
      let scan ← scan.marker
      let (shape, next) ← readDirective scan.cursor
      return { scan.emit shape scan.cursor.mark next.mark with cursor := next }
    else if scan.cursor.atMarker '-' then
      return (← scan.marker).emitHere .documentStart 3
    else if scan.cursor.atMarker '.' then
      return (← scan.marker).emitHere .documentEnd 3
    else
      (← scan.tokenAndComment c).see 2

/-- Whether the next token can be taken: two more have been read, and it is known whether it begins
a key. -/
def isReady (scan : Scan) : Option Bool :=
  if scan.queue.size ≤ 2 then some false
  else
    match scan.waiting.lookup scan.queue.taken with
    | none => some true
    | some level => do
      let candidate := scan.candidates.getD (scan.flowLevel - level) {}
      return !(← scan.isFresh candidate)

def fillWithin : Nat → Scan → Option Scan
  | 0, _ => none
  | fuel + 1, scan => do
    if ← scan.isReady then return scan else fillWithin fuel (← scan.fetch)

def fill (scan : Scan) : Option Scan := fillWithin (scan.length + 4) scan

/-- The start of a text. A byte order mark in front of it does not count. -/
def ofText (text : String) : Scan :=
  let (chars, space) := match text.toList with
    | c :: rest =>
      if c == byteOrderMark then (rest, Piece.size - c.utf8Size) else (c :: rest, Piece.size)
    | [] => ([], Piece.size)
  { cursor := { rest := chars }
    view := { pieces := Piece.cut chars space ⟨0, true⟩ }
    length := chars.length
    queue := ({} : Queue).push ⟨.streamStart, {}, {}⟩ }

end Scan

end TypeSearch.Yaml
