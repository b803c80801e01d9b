import TypeSearch.Yaml.Cursor

/-!
The tokens of a YAML text, and the queue in which they wait.
-/


namespace TypeSearch.Yaml

inductive Token.Shape where
  | streamStart
  | streamEnd
  | version (major minor : Nat)
  | tagShorthand (handle expansion : String)
  | documentStart
  | documentEnd
  | blockSequenceStart
  | blockMappingStart
  | blockEnd
  | flowSequenceStart
  | flowSequenceEnd
  | flowMappingStart
  | flowMappingEnd
  | blockEntry
  | flowEntry
  | key
  | value
  | reference (name : String)
  | anchor (name : String)
  | tag (handle suffix : String)
  | scalar (text : String) (plain : Bool)
  deriving DecidableEq, Repr, Inhabited

structure Token where
  shape : Token.Shape
  start : Mark
  stop : Mark
  deriving Repr, Inhabited

/-- Tokens that have been read and not been taken. They stand in a row of slots behind the slots of
tokens that have been taken. When the row is full, they move to its front, and when that gains
nothing, the row grows. -/
structure Queue where
  slots : Array Token := #[]
  first : Nat := 0
  room : Nat := 0
  taken : Nat := 0
  deriving Repr, Inhabited

namespace Queue

def size (queue : Queue) : Nat := queue.slots.size - queue.first

def nextNumber (queue : Queue) : Nat := queue.taken + queue.size

def front? (queue : Queue) : Option Token := queue.slots[queue.first]?

def last? (queue : Queue) : Option Token := queue.slots.back?

def take (queue : Queue) : Queue :=
  { queue with first := queue.first + 1, taken := queue.taken + 1 }

def grown : Nat → Nat
  | 0 => 1
  | 8 => 18
  | 18 => 37
  | 37 => 75
  | 75 => 151
  | room => 2 * room

def prepare (queue : Queue) : Queue :=
  if queue.slots.size != queue.room then queue
  else if 0 < queue.first then
    { queue with slots := queue.slots.extract queue.first queue.slots.size, first := 0 }
  else { queue with room := grown queue.room }

def push (queue : Queue) (token : Token) : Queue :=
  let queue := queue.prepare
  { queue with slots := queue.slots.push token }

/-- Puts a token in front of the one with a number, or behind all if that one has been taken. -/
def insert (queue : Queue) (number : Nat) (token : Token) : Queue :=
  if number < queue.taken then queue.push token
  else
    let queue := queue.prepare
    { queue with
      slots := queue.slots.insertIdxIfInBounds (queue.first + (number - queue.taken)) token }

end Queue

end TypeSearch.Yaml
