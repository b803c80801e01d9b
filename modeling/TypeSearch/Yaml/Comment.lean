import TypeSearch.Yaml.Cursor

/-!
Comments between two tokens. Comments on lines of their own form groups, and the block collections
that end there end before the groups that are indented like them.
-/

namespace TypeSearch.Yaml

structure Comment where
  /-- The number of characters before the place from which the group was looked for. -/
  origin : Nat
  /-- Where the group starts, with a column that is counted from 1. -/
  start : Mark
  stop : Nat
  deriving Repr, Inhabited

namespace Comment

def horizon : Nat := 512

def skipTrailing (cursor : Cursor) : Cursor :=
  if 0 < cursor.breaks then cursor
  else
    let blanks := (cursor.rest.takeWhile isBlank).length
    if blanks < horizon && cursor.test blanks (· == '#') then cursor.skipLine else cursor

structure Setting where
  indent : Nat
  inFlow : Bool
  afterValue : Bool
  /-- The line on which comments belong to what is before them, if there is one. -/
  footLine : Option Nat

structure Search where
  cursor : Cursor
  groups : List Comment := []
  origin : Nat
  current : Option Mark := none
  line : Nat
  column : Nat
  compact : Bool
  afterEmpty : Bool := false

namespace Search

def close (search : Search) (offset : Nat) : Search :=
  match search.current with
  | none => search
  | some start =>
    let stop := search.cursor.mark.index + offset
    { search with
      groups := ⟨search.origin, start, stop⟩ :: search.groups
      origin := stop
      current := none }

/-- Whether an empty line parts the current group from what comes after it. -/
def isFoot (search : Search) (setting : Setting) : Bool :=
  search.current.any fun start =>
    search.compact && (some start.line == setting.footLine && !setting.afterValue ||
      start.column - 1 < setting.indent)

def atBreak (search : Search) (setting : Setting) (offset : Nat) : Search :=
  if !search.afterEmpty && search.isFoot setting then search.close offset else search

/-- Parts the current group from less indented text in another column. -/
def atText (search : Search) (setting : Setting) (offset : Nat) : Search :=
  let dedented := search.current.any fun start =>
    search.column - 1 < setting.indent && search.column != start.column
  if dedented then search.close offset else search

def passed (cursor : Cursor) : Nat → Cursor
  | 0 => cursor
  | count + 1 =>
    match cursor.rest with
    | '\r' :: '\n' :: _ => passed cursor.readBreak.2 (count - 1)
    | c :: _ => passed (if isBreak c then cursor.readBreak.2 else cursor.skip) count
    | [] => cursor
termination_by count => count

def atComment (search : Search) (offset : Nat) : Search :=
  let cursor := passed search.cursor offset
  let start : Mark :=
    ⟨search.cursor.mark.index + offset, search.line, search.column⟩
  let next := cursor.skipLine
  { search with
    cursor := next
    current := search.current.or (some start)
    line := next.mark.line
    column := 0
    afterEmpty := false }

/-- Looks for comments from an offset on. A line break that takes more than one byte ends the
search. -/
def run (setting : Setting) : Nat → (offset : Nat) → Search → Search
  | 0, offset, search => search.close (offset - 1)
  | fuel + 1, offset, search =>
    if horizon ≤ offset then search.close (offset - 1)
    else
      let search := { search with column := search.column + 1 }
      let wide := 0 < offset &&
        search.cursor.test (offset - 1) fun c => isBreak c && 0x80 ≤ c.toNat
      match search.cursor.rest[offset]? with
      | none =>
        if wide then (search.atText setting offset).close (offset - 1)
        else (search.atBreak setting offset).close (offset - 1)
      | some c =>
        if wide then (search.atText setting offset).close (offset - 1)
        else if isBlank c then run setting fuel (offset + 1) search
        else if setting.inFlow && (c == ']' || c == '\x7d') then
          search.close offset
        else if isBreak c then
          run setting fuel (offset + 1)
            { search.atBreak setting offset with
              compact := false
              afterEmpty := true
              column := 0
              line := search.line + 1 }
        else
          let search := search.atText setting offset
          if c == '#' then run setting fuel 1 (search.atComment offset)
          else search.close (offset - 1)

end Search

/-- Reads the comment under the cursor and those on the lines behind it. The search for the next
token started at `origin`, inside a block collection with the given indentation. -/
def read (fuel : Nat) (indent : Int) (inFlow afterValue : Bool) (origin : Mark) (cursor : Cursor) :
    List Comment × Cursor :=
  let mark := cursor.mark
  let footLine :=
    if origin.column = 0 then none
    else if cursor.breaks = 0 && 1 < mark.column then some (mark.line + 2)
    else some (mark.line + 1 - cursor.breaks)
  let search := Search.run { indent := indent.toNat, inFlow, afterValue, footLine } fuel 0
    { cursor
      origin := origin.index
      line := mark.line
      column := mark.column
      compact := cursor.breaks ≤ 1 }
  (search.groups, search.cursor)

/-- Where a block collection with the given indentation ends: at `mark`, or at the first of the
groups, latest first, that is indented like it and is parted from `stop` by groups only. -/
def blockEnd (indent : Int) : (stop : Int) → (mark : Mark) → List Comment → Mark
  | _, mark, [] => mark
  | stop, mark, group :: groups =>
    if (group.stop : Int) < stop then mark
    else
      let mark := if (group.start.column : Int) = indent + 1 then group.start else mark
      blockEnd indent group.origin mark groups

end Comment

end TypeSearch.Yaml
