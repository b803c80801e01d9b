import TypeSearch.Issue.Basic
import TypeSearch.Tree.Render

/-!
Log lines: a level, a message and named values. Lines below a warning are kept only if they belong
to a section that is listened to.
-/

namespace TypeSearch.Log

/-- The sections that are listened to; longer names that start with one belong to it. -/
def sections : List String := ["inference", "scope", "modgraph", "program"]

def isListenedTo (section' : String) : Bool := sections.any fun known => section'.startsWith known

def debugLevel : Int := -4
def infoLevel : Int := 0
def warnLevel : Int := 4
def errorLevel : Int := 8

/-- A named level, or the next lower one and the distance to it. Debug also names all below it. -/
def levelName (level : Int) : String :=
  let (name, base) :=
    if level < infoLevel then ("DEBUG", debugLevel)
    else if level < warnLevel then ("INFO", infoLevel)
    else if level < errorLevel then ("WARN", warnLevel)
    else ("ERROR", errorLevel)
  if level = base then name
  else name ++ (if base < level then "+" else "") ++ toString (level - base)

inductive Value where
  | text (text : String)
  | number (value : Int)
  | flag (value : Bool)
  | node (node : Tree.Node)
  | type (type : Ty)
  | issues (issues : List Issue)

structure Field where
  key : String
  value : Value

/-- Texts that would not stand out as one word are quoted. -/
def needsQuotes (text : String) : Bool :=
  text.isEmpty || text.any fun c =>
    if c.val < 128 then c == ' ' || c == '=' || c == '"' || c.val < 32
    else c == '\ufffd' || !Text.isPrintable c

def word (text : String) : String := if needsQuotes text then Text.quote text else text

def keyText (groups key : String) : String :=
  if groups.isEmpty then word key
  else if needsQuotes groups || needsQuotes key then Text.quote (groups ++ key)
  else groups ++ key

structure Logger where
  level : Int
  /-- Whether nodes are written as source text, or else as their ranges. -/
  showsNodes : Bool
  fields : List String := []
  /-- The names of the open groups, each with a dot behind it. -/
  groups : String := ""
  isSectioned : Bool := false

def rangeText (node : Tree.Node) : String :=
  let span := node.site.span
  Span.text ⟨span.start + 1, span.stop + 1⟩

def Field.words (field : Field) (logger : Logger) : List String :=
  let one (text : String) : List String :=
    if field.key == "time" then [] else [keyText logger.groups field.key ++ "=" ++ word text]
  match field.value with
  | .text text => one text
  | .number value => one (toString value)
  | .flag value => one (toString value)
  | .node node => one (if logger.showsNodes then node.render else rangeText node)
  | .type type => one type.text
  | .issues issues =>
    let groups := if field.key.isEmpty then logger.groups else logger.groups ++ field.key ++ "."
    issues.zipIdx.map fun (issue, i) =>
      keyText (groups ++ "e" ++ i.repr ++ ".") "msg" ++ "=" ++ word issue.text

def Field.isSection (field : Field) : Bool :=
  match field.value with
  | .text text => field.key == "section" && isListenedTo text
  | _ => false

namespace Logger

def isEnabled (logger : Logger) (level : Int) : Bool := logger.level ≤ level

def withFields (logger : Logger) (fields : List Field) : Logger :=
  { logger with
    fields := logger.fields ++ fields.flatMap (·.words logger)
    isSectioned := logger.isSectioned || fields.any (·.isSection) }

def withGroup (logger : Logger) (name : String) : Logger :=
  if name.isEmpty then logger else { logger with groups := logger.groups ++ name ++ "." }

def line (logger : Logger) (level : Int) (message : String) (fields : List Field) : String :=
  let isHeard := warnLevel ≤ level || logger.isSectioned || fields.any (·.isSection)
  if logger.isEnabled level && isHeard then
    let words := ["level=" ++ levelName level, "msg=" ++ word message] ++ logger.fields ++
      fields.flatMap (·.words logger)
    " ".intercalate words ++ "\n"
  else ""

end Logger

end TypeSearch.Log
