import TypeSearch.Yaml.Scalar
import TypeSearch.Yaml.Scan

/-!
YAML documents as trees. Nodes with an anchor have numbers, and an alias holds the number of the
node that it refers to, which can be a node that it stands in.
-/

namespace TypeSearch.Yaml

inductive Node where
  | scalar (mark : Mark) (tag text : String)
  | sequence (mark : Mark) (items : List Node)
  | mapping (mark : Mark) (entries : List (Node × Node))
  | reference (mark : Mark) (name : String) (target : Nat)
  deriving Repr, Inhabited

namespace Node

def mark : Node → Mark
  | scalar mark _ _ | sequence mark _ | mapping mark _ | reference mark _ _ => mark

def line (node : Node) : Nat := node.mark.line + 1

def column (node : Node) : Nat := node.mark.column + 1

def text : Node → String
  | scalar _ _ text => text
  | reference _ name _ => name
  | _ => ""

def isNull : Node → Bool
  | scalar _ tag _ => tag == "!!null"
  | _ => false

mutual

/-- How many sequences and mappings stand around each other at most. -/
def height : Node → Nat
  | scalar _ _ _ | reference _ _ _ => 0
  | sequence _ items => heightOfItems items
  | mapping _ entries => heightOfEntries entries + 1

def heightOfItems : List Node → Nat
  | [] => 0
  | item :: items => max (height item + 1) (heightOfItems items)

def heightOfEntries : List (Node × Node) → Nat
  | [] => 0
  | (key, value) :: entries => max (max (height key) (height value)) (heightOfEntries entries)

end

def plain (mark : Mark) (text : String) (quoted : Bool) : Node :=
  if quoted then scalar mark "!!str" text
  else if text == "<<" then scalar mark "!!merge" text
  else scalar mark (Meaning.ofPlain true text).tag text

end Node

inductive Malformed where
  | malformed
  deriving DecidableEq, Repr, Inhabited

structure Document where
  root : Node
  anchored : Array Node
  /-- Bounds the tokens of the document and how deep they nest. -/
  size : Nat
  deriving Inhabited

namespace Document

structure State where
  scan : Scan
  shorthands : List (String × String) := []
  /-- The number that each anchor stands for, latest first. -/
  anchors : List (String × Nat) := []
  anchored : Array Node := #[]

abbrev Parse (α : Type) := StateT State (Except Malformed) α

def fail {α : Type} : Parse α := throw .malformed

def peek : Parse Token := do
  let state ← get
  match state.scan.fill with
  | none => fail
  | some scan =>
    set { state with scan }
    match scan.queue.front? with
    | some token => return token
    | none => fail

def peekShape : Parse Token.Shape := do return (← peek).shape

def skip : Parse Unit :=
  modify fun state => { state with scan := { state.scan with queue := state.scan.queue.take } }

def takeStop : Parse Mark := do
  let token ← peek
  skip
  return token.stop

def tokenBound : Parse Nat := do return 4 * (← get).scan.length + 16

def emptyAt (mark : Mark) : Node := .plain mark "" false

/-- The tag that a handle and a suffix stand for, in its short form. -/
def expandTag (handle suffix : String) : Parse String := do
  let long ←
    if handle.isEmpty then pure suffix
    else match (← get).shorthands.lookup handle with
      | some expansion => pure (expansion ++ suffix)
      | none => fail
  let common := "tag:yaml.org,2002:"
  return if common.isPrefixOf long then "!!" ++ String.ofList (long.toList.drop common.length)
    else long

/-- Reads an anchor and a tag in either order, and where the first of them stands. -/
def readProperties : Parse (Option String × Option String × Mark) := do
  let first ← peek
  match first.shape with
  | .anchor name =>
    skip
    match ← peekShape with
    | .tag handle suffix =>
      skip
      return (some name, some (← expandTag handle suffix), first.start)
    | _ => return (some name, none, first.start)
  | .tag handle suffix =>
    skip
    match ← peekShape with
    | .anchor name =>
      skip
      return (some name, some (← expandTag handle suffix), first.start)
    | _ => return (none, some (← expandTag handle suffix), first.start)
  | _ => return (none, none, first.start)

/-- Gives a number to the node that is read next if it has an anchor. -/
def openAnchor (anchor : Option String) : Parse (Option Nat) := do
  match anchor with
  | none => return none
  | some name =>
    let state ← get
    let number := state.anchored.size
    set { state with
      anchors := (name, number) :: state.anchors
      anchored := state.anchored.push default }
    return some number

def closeAnchor (number : Option Nat) (node : Node) : Parse Node := do
  match number with
  | none => return node
  | some number =>
    modify fun state => { state with anchored := state.anchored.setIfInBounds number node }
    return node

def scalarOf (mark : Mark) (tag : Option String) (text : String) (quoted : Bool) : Node :=
  match tag with
  | none | some "" | some "!" => .plain mark text quoted
  | some tag => .scalar mark tag text

/-- The place of a node: whether block collections may start there, and whether the entries of a
sequence may stand there without one. -/
structure Place where
  block : Bool
  indentless : Bool

def blockValue : Place := ⟨true, true⟩

def blockItem : Place := ⟨true, false⟩

def flowItem : Place := ⟨false, false⟩

abbrev Reader := Place → Parse Node

/-- Reads a node unless one of the given tokens is next; then there is nothing, at `mark`. -/
def nodeUnless (reader : Reader) (place : Place) (stops : List Token.Shape) (mark : Mark) :
    Parse Node := do
  if stops.contains (← peekShape) then return emptyAt mark else reader place

/-- Reads the entries of a sequence. One that is not indented ends in front of any other token. -/
def blockSequence (reader : Reader) (indentless : Bool) : Nat → Parse (List Node)
  | 0 => fail
  | fuel + 1 => do
    match ← peekShape with
    | .blockEntry =>
      let mark ← takeStop
      let item ← nodeUnless reader blockItem
        (if indentless then [.blockEntry, .key, .value, .blockEnd] else [.blockEntry, .blockEnd])
        mark
      return item :: (← blockSequence reader indentless fuel)
    | next =>
      if indentless then return []
      else if next == .blockEnd then
        skip
        return []
      else fail

def blockMapping (reader : Reader) : Nat → Parse (List (Node × Node))
  | 0 => fail
  | fuel + 1 => do
    match ← peekShape with
    | .key =>
      let mark ← takeStop
      let key ← nodeUnless reader blockValue [.key, .value, .blockEnd] mark
      let next ← peek
      let value ←
        if next.shape == .value then do
          skip
          nodeUnless reader blockValue [.key, .value, .blockEnd] next.stop
        else pure (emptyAt next.start)
      return (key, value) :: (← blockMapping reader fuel)
    | .blockEnd =>
      skip
      return []
    | _ => fail

def flowValue (reader : Reader) : Parse Node := do
  let next ← peek
  if next.shape == .value then
    skip
    nodeUnless reader flowItem [.flowEntry, .flowMappingEnd] (← peek).start
  else return emptyAt next.start

/-- Reads `: value` of a pair in a flow sequence, if it is there. Where nothing is behind the sign,
there is an empty value at the token that then stands in the slot of the sign. -/
def pairValue (reader : Reader) : Parse Node := do
  let next ← peek
  if next.shape == .value then
    let slot := (← get).scan.queue.first
    skip
    let after ← peek
    if [Token.Shape.flowEntry, .flowSequenceEnd].contains after.shape then
      return emptyAt ((← get).scan.queue.slots[slot]?.getD next).start
    else reader flowItem
  else return emptyAt next.start

def separator (first : Bool) : Parse Unit := do
  if first then return
  else if (← peekShape) == .flowEntry then skip
  else fail

def flowSequence (reader : Reader) : Nat → (first : Bool) → Parse (List Node)
  | 0, _ => fail
  | fuel + 1, first => do
    if (← peekShape) == .flowSequenceEnd then
      skip
      return []
    separator first
    let next ← peek
    match next.shape with
    | .flowSequenceEnd =>
      skip
      return []
    | .key =>
      skip
      let after ← peek
      let key ←
        if [Token.Shape.value, .flowEntry, .flowSequenceEnd].contains after.shape then do
          skip
          pure (emptyAt after.stop)
        else reader flowItem
      let value ← pairValue reader
      return .mapping next.start [(key, value)] :: (← flowSequence reader fuel false)
    | _ =>
      let item ← reader flowItem
      return item :: (← flowSequence reader fuel false)

def flowMapping (reader : Reader) : Nat → (first : Bool) → Parse (List (Node × Node))
  | 0, _ => fail
  | fuel + 1, first => do
    if (← peekShape) == .flowMappingEnd then
      skip
      return []
    separator first
    match ← peekShape with
    | .flowMappingEnd =>
      skip
      return []
    | .key =>
      skip
      let key ←
        nodeUnless reader flowItem [.value, .flowEntry, .flowMappingEnd] (← peek).start
      let value ← flowValue reader
      return (key, value) :: (← flowMapping reader fuel false)
    | _ =>
      let key ← reader flowItem
      let value := emptyAt (← peek).start
      return (key, value) :: (← flowMapping reader fuel false)

def readNode : (depth : Nat) → Reader
  | 0, _ => fail
  | depth + 1, place => do
    let first ← peek
    if let .reference name := first.shape then
      skip
      match (← get).anchors.lookup name with
      | some target => return .reference first.start name target
      | none => fail
    else
      let (anchor, tag, mark) ← readProperties
      let fuel ← tokenBound
      let number ← openAnchor anchor
      let next ← peek
      let reader := readNode depth
      let node ← match next.shape with
        | .scalar text plain => do
          skip
          pure (scalarOf mark tag text (!plain))
        | .flowSequenceStart => do
          skip
          pure (.sequence mark (← flowSequence reader fuel true))
        | .flowMappingStart => do
          skip
          pure (.mapping mark (← flowMapping reader fuel true))
        | .blockEntry =>
          if place.indentless then do
            pure (.sequence mark (← blockSequence reader true fuel))
          else empty anchor tag mark
        | .blockSequenceStart =>
          if place.block then do
            skip
            pure (.sequence mark (← blockSequence reader false fuel))
          else empty anchor tag mark
        | .blockMappingStart =>
          if place.block then do
            skip
            pure (.mapping mark (← blockMapping reader fuel))
          else empty anchor tag mark
        | _ => empty anchor tag mark
      closeAnchor number node
where
  /-- Nothing is a node only behind an anchor or a tag. -/
  empty (anchor tag : Option String) (mark : Mark) : Parse Node :=
    if anchor.isSome || tag.isSome then pure (scalarOf mark tag "" false) else fail

def defaultShorthands : List (String × String) := [("!", "!"), ("!!", "tag:yaml.org,2002:")]

/-- Reads the directives in front of a document. The version is given once at most, and so is each
shorthand. -/
def readDirectives : Nat → (versioned : Bool) → Parse Unit
  | 0, _ => fail
  | fuel + 1, versioned => do
    match ← peekShape with
    | .version major minor =>
      if major == 1 && minor == 1 && !versioned then
        skip
        readDirectives fuel true
      else fail
    | .tagShorthand handle expansion =>
      if ((← get).shorthands.lookup handle).isSome then fail
      modify fun state =>
        { state with shorthands := (handle, expansion) :: state.shorthands }
      skip
      readDirectives fuel versioned
    | _ =>
      modify fun state => { state with shorthands := state.shorthands ++ defaultShorthands }

/-- Reads the first document, if there is one, and looks at the token behind it. -/
def read (depth : Nat) : Parse (Option Node) := do
  let _ ← peek
  skip
  match ← peekShape with
  | .streamEnd => return none
  | .documentStart | .version _ _ | .tagShorthand _ _ =>
    readDirectives depth false
    if (← peekShape) != .documentStart then fail
    skip
    let next ← peek
    match next.shape with
    | .version _ _ | .tagShorthand _ _ | .documentStart | .documentEnd | .streamEnd =>
      return some (emptyAt next.start)
    | _ => content
  | _ =>
    readDirectives depth false
    content
where
  content : Parse (Option Node) := do
    let node ← readNode depth blockItem
    let _ ← peek
    return some node

def ofText (text : String) : Except Malformed (Option Document) := do
  let scan := Scan.ofText text
  let size := 4 * scan.length + 16
  let (root, state) ← (Document.read size).run { scan }
  return root.map fun root =>
    { root, anchored := state.anchored, size := max size root.height }

end Document

end TypeSearch.Yaml
