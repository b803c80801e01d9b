import TypeSearch.Yaml.Node

/-!
Reading the fields of a mapping. A field takes only nodes of its own shape, a mapping has no key
twice, and the mappings that `<<` brings in only add keys that are not there yet. What stands behind
aliases must not outgrow what does not.
-/

namespace TypeSearch.Yaml

inductive Refusal where
  | refused
  deriving DecidableEq, Repr, Inhabited

inductive Shape where
  | text
  | flag
  | int
  | node
  | list (item : Shape)
  | record (fields : List (String × Shape))
  deriving Repr, Inhabited

abbrev Schema := List (String × Shape)

/-- The content of a field. A list can be absent, which differs from an empty one. -/
inductive Value where
  | text (value : String)
  | flag (value : Bool)
  | int (value : Int)
  | node (value : Node)
  | list (items : Option (List Value))
  | record (fields : List (String × Value))
  deriving Inhabited

structure Tally where
  all : Nat := 0
  behind : Nat := 0
  deriving Repr, Inhabited

namespace Tally

/-- Whether too much of what was read stands behind aliases: 99 of 100 nodes are fine for a start,
and the share sinks to a tenth where very many nodes are read. -/
def isExcessive (tally : Tally) : Bool :=
  100 < tally.behind && 1000 < tally.all &&
    if tally.all ≤ 400000 then 99 * tally.all < 100 * tally.behind
    else if 4000000 ≤ tally.all then tally.all < 10 * tally.behind
    else 99 * tally.all * (4000000 - tally.all) < 100 * 3600000 * tally.behind

end Tally

/-- Where a reading is: the anchored nodes of the document, and the aliases that it is behind. -/
structure Position where
  anchored : Array Node
  aliases : List Mark := []

abbrev Reading (α : Type) := ReaderT Position (StateT Tally (Except Refusal)) α

namespace Reading

def refuse {α : Type} : Reading α := throw .refused

def count : Reading Unit := do
  let outside := (← read).aliases.isEmpty
  let tally ← get
  let tally : Tally := ⟨tally.all + 1, if outside then tally.behind else tally.behind + 1⟩
  set tally
  if tally.isExcessive then refuse

/-- Reads the target of an alias, which must not lead back to the alias. -/
def behind {α : Type} (mark : Mark) (target : Nat) (reader : Node → Reading α) : Reading α :=
  fun position =>
    match position.anchored[target]? with
    | none => refuse position
    | some node =>
      if position.aliases.contains mark then refuse position
      else reader node { position with aliases := mark :: position.aliases }

end Reading

namespace Scalar

/-- What a scalar means under its tag. A text that does not agree with its tag is refused. -/
def meaning (tag text : String) : Reading Meaning :=
  if ["!!bool", "!!int", "!!float", "!!null", "!!timestamp"].contains tag then
    let found := Meaning.ofPlain (tag == "!!timestamp") text
    if found.tag == tag then return found
    else
      match tag, found with
      | "!!float", .int n =>
        if n < Word.limit then return .float (Double.ofInt n) else Reading.refuse
      | _, _ => Reading.refuse
  else return .text

/-- The text of a scalar; under the tag for binary data, its letters stand for bytes. -/
def content (tag text : String) : Reading String :=
  if tag != "!!binary" then return text
  else
    match Text.Base64.decode? text with
    | some decoded => return decoded
    | none => Reading.refuse

def truthWords : List String := ["y", "Y", "yes", "Yes", "YES", "on", "On", "ON"]

def falseWords : List String := ["n", "N", "no", "No", "NO", "off", "Off", "OFF"]

def flag (meaning : Meaning) (content : String) : Reading Bool :=
  match meaning with
  | .bool value => return value
  | .text =>
    if truthWords.contains content then return true
    else if falseWords.contains content then return false
    else Reading.refuse
  | _ => Reading.refuse

/-- A whole number, or the whole part of a double. The first double that is too large counts as the
least number. -/
def int : Meaning → Reading Int
  | .int n => if n < Word.limit then return n else Reading.refuse
  | .float n =>
    if n < Word.limit then return max n Word.least
    else if n = Word.limit then return Word.least
    else Reading.refuse
  | .negativeInfinity => return Word.least
  | _ => Reading.refuse

/-- Stores a scalar. Nothing is stored for a null, but a list is absent then. -/
def store (tag text : String) (shape : Shape) : Reading (Option Value) := do
  let content ← content tag text
  match ← meaning tag text, shape with
  | .null, .list _ => return some (.list none)
  | .null, _ => return none
  | _, .text => return some (.text content)
  | meaning, .flag => return some (.flag (← flag meaning content))
  | meaning, .int => return some (.int (← int meaning))
  | _, _ => Reading.refuse

end Scalar

namespace Node

def sameKey : Node → Node → Bool
  | scalar _ _ text, scalar _ _ text' => text == text'
  | sequence _ _, sequence _ _ => true
  | mapping _ _, mapping _ _ => true
  | reference _ name _, reference _ name' _ => name == name'
  | _, _ => false

def hasRepeatedKey : List (Node × Node) → Bool
  | [] => false
  | entry :: entries => entries.any (fun other => entry.1.sameKey other.1) || hasRepeatedKey entries

def isMergeKey : Node → Bool
  | scalar _ tag text => text == "<<" && tag == "!!merge"
  | _ => false

def isMapping : Node → Bool
  | mapping _ _ => true
  | _ => false

end Node

structure Gathered where
  fields : List (String × Value) := []
  /-- The keys that mappings brought in by `<<` cannot give any more; there are none outside of such
  mappings. -/
  taken : Option (List String) := none
  deriving Inhabited

namespace Gathered

def claim (gathered : Gathered) (name : String) : Option Gathered :=
  match gathered.taken with
  | none => some gathered
  | some names =>
    if names.contains name then none else some { gathered with taken := some (name :: names) }

def put (gathered : Gathered) (name : String) : Option Value → Gathered
  | some value => { gathered with fields := (name, value) :: gathered.fields }
  | none => gathered

end Gathered

abbrev ShapeReader := Shape → Node → Reading (Option Value)

def keyName? (reader : ShapeReader) (key : Node) : Reading (Option String) := do
  match ← reader .text key with
  | some (.text name) => return some name
  | _ => return none

/-- Reads the entries of a mapping and finds what its merge key brings in. `own` has the fields that
the mapping gives itself. -/
def readEntries (reader : ShapeReader) (schema : Schema) :
    List (Node × Node) → (own : List String) → (merged : Option Node) → Gathered →
      Reading (Gathered × Option Node)
  | [], _, merged, gathered => return (gathered, merged)
  | (key, value) :: entries, own, merged, gathered => do
    if key.isMergeKey then readEntries reader schema entries own (some value) gathered
    else
      match (← keyName? reader key).bind fun name => (gathered.claim name).map (name, ·) with
      | none => readEntries reader schema entries own merged gathered
      | some (name, gathered) =>
        match schema.lookup name with
        | none => readEntries reader schema entries own merged gathered
        | some shape =>
          if own.contains name then Reading.refuse
          else
            let gathered := gathered.put name (← reader shape value)
            readEntries reader schema entries (name :: own) merged gathered

def takeKeys (reader : ShapeReader) (entries : List (Node × Node)) (gathered : Gathered) :
    Reading Gathered := do
  match gathered.taken with
  | some _ => return gathered
  | none =>
    let names ← entries.mapM fun (key, _) => keyName? reader key
    return { gathered with taken := some (names.filterMap id) }

def mergedMappings : Node → Reading (List Node)
  | .sequence _ items => do
    for item in items do checkMapping item
    return items
  | node => do
    checkMapping node
    return [node]
where
  checkMapping (node : Node) : Reading Unit := do
    let anchored := (← read).anchored
    let followed := match node with
      | .reference _ _ target => anchored[target]?
      | node => some node
    if !followed.any Node.isMapping then Reading.refuse

mutual

def readWithin : Nat → ShapeReader
  | 0, _, _ => Reading.refuse
  | depth + 1, .record schema, node => do
    match ← gatherWithin depth schema {} node with
    | some gathered => return some (.record gathered.fields)
    | none => return none
  | depth + 1, shape, node => do
    Reading.count
    match shape, node with
    | .node, node => return some (.node node)
    | shape, .reference mark _ target => Reading.behind mark target (readWithin depth shape)
    | shape, .scalar _ tag text => Scalar.store tag text shape
    | .list item, .sequence _ items =>
      let values ← items.mapM (readWithin depth item)
      return some (.list (some (values.filterMap id)))
    | _, _ => Reading.refuse

def gatherWithin : Nat → Schema → Gathered → Node → Reading (Option Gathered)
  | 0, _, _, _ => Reading.refuse
  | depth + 1, schema, gathered, node => do
    Reading.count
    match node with
    | .reference mark _ target =>
      Reading.behind mark target (gatherWithin depth schema gathered)
    | .scalar _ tag text =>
      match ← Scalar.meaning tag text with
      | .null => return none
      | _ => Reading.refuse
    | .sequence _ _ => Reading.refuse
    | .mapping _ entries =>
      if Node.hasRepeatedKey entries then Reading.refuse
      let (gathered, merged) ←
        readEntries (readWithin depth) schema entries [] none gathered
      match merged with
      | none => return some gathered
      | some merged =>
        let outside := gathered.taken
        let gathered ← takeKeys (readWithin depth) entries gathered
        let gathered ← (← mergedMappings merged).foldlM (fun gathered node => do
          return (← gatherWithin depth schema gathered node).getD gathered) gathered
        return some (if outside.isNone then { gathered with taken := none } else gathered)

end

structure Record where
  fields : List (String × Value)

namespace Record

/-- Reads a record with the given fields. A null has none of them. -/
def ofNode (document : Document) (schema : Schema) (node : Node) : Except Refusal Record := do
  let (gathered, _) ←
    (gatherWithin (document.size + 8) schema {} node).run { anchored := document.anchored }
      |>.run {}
  return ⟨(gathered.getD {}).fields⟩

def ofValue : Value → Record
  | .record fields => ⟨fields⟩
  | _ => ⟨[]⟩

def text (record : Record) (name : String) : String :=
  match record.fields.lookup name with
  | some (.text value) => value
  | _ => ""

def flag (record : Record) (name : String) : Bool :=
  match record.fields.lookup name with
  | some (.flag value) => value
  | _ => false

def node? (record : Record) (name : String) : Option Node :=
  match record.fields.lookup name with
  | some (.node value) => some value
  | _ => none

def list? {α : Type} (record : Record) (name : String) (item : Value → Option α) :
    Option (List α) :=
  match record.fields.lookup name with
  | some (.list items) => items.map (·.filterMap item)
  | _ => none

def nodes (record : Record) (name : String) : List Node :=
  (record.list? name fun | .node value => some value | _ => none).getD []

def texts (record : Record) (name : String) : List String :=
  (record.list? name fun | .text value => some value | _ => none).getD []

def ints? (record : Record) (name : String) : Option (List Int) :=
  record.list? name fun | .int value => some value | _ => none

def records (record : Record) (name : String) : List Record :=
  (record.list? name fun value => some (ofValue value)).getD []

end Record

end TypeSearch.Yaml
