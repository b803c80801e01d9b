import TypeSearch.Text.Digits
import TypeSearch.Text.Quote
import TypeSearch.Word

/-!
The arguments of the command line: flags, which may stand anywhere before `--`, and paths.
-/

namespace TypeSearch.CommandLine

structure Options where
  logLevel : Int := 8
  showTypes : Bool := false
  dump : Bool := false
  help : Bool := false
  paths : List String := []
  deriving DecidableEq, Repr, Inhabited

inductive Flag where
  | logLevel | showTypes | dump | help
  deriving DecidableEq, Repr

namespace Flag

def ofName? : String → Option Flag
  | "log-level" => some logLevel
  | "show-types" => some showTypes
  | "dump" => some dump
  | "help" => some help
  | _ => none

def ofLetter? : Char → Option Flag
  | 'l' => some logLevel
  | 'h' => some help
  | _ => none

def title : Flag → String
  | logLevel => "-l, --log-level"
  | showTypes => "--show-types"
  | dump => "--dump"
  | help => "-h, --help"

/-- What a flag is set to if it is given without a value. For a flag without such a value, the next
argument is the value. -/
def implied? : Flag → Option String
  | logLevel => none
  | showTypes | dump | help => some "true"

end Flag

inductive ValueFault where
  | notANumber | numberTooLarge | notATruthValue
  deriving DecidableEq, Repr

def ValueFault.message (value : String) : ValueFault → String
  | .notANumber => "strconv.ParseInt: parsing " ++ Text.quote value ++ ": invalid syntax"
  | .numberTooLarge => "strconv.ParseInt: parsing " ++ Text.quote value ++ ": value out of range"
  | .notATruthValue => "strconv.ParseBool: parsing " ++ Text.quote value ++ ": invalid syntax"

inductive Error where
  | malformed (argument : String)
  | unknownFlag (name : String)
  | unknownLetter (letter : Char) (letters : String)
  | missingValue (argument : String)
  | missingLetterValue (letter : Char) (letters : String)
  | badValue (flag : Flag) (value : String) (fault : ValueFault)
  | pathCount (count : Nat)
  deriving DecidableEq, Repr

def Error.message : Error → String
  | malformed argument => "bad flag syntax: " ++ argument
  | unknownFlag name => "unknown flag: --" ++ name
  | unknownLetter letter letters =>
    "unknown shorthand flag: " ++ Text.quoteChar letter ++ " in -" ++ letters
  | missingValue argument => "flag needs an argument: " ++ argument
  | missingLetterValue letter letters =>
    "flag needs an argument: " ++ Text.quoteChar letter ++ " in -" ++ letters
  | badValue flag value fault =>
    "invalid argument " ++ Text.quote value ++ " for " ++ Text.quote flag.title ++ " flag: " ++
      fault.message value
  | pathCount count => "accepts 1 arg(s), received " ++ count.repr

/-! Values of flags. -/

def readDigits (base : Nat) : List Char → Nat → Except ValueFault Nat
  | [], number => .ok number
  | '_' :: rest, number => readDigits base rest number
  | c :: rest, number =>
    match Digits.value? base c with
    | none => .error .notANumber
    | some digit =>
      let next := number * base + digit
      if next < Word.count then readDigits base rest next else .error .numberTooLarge

/-- Whether every underscore stands between two digits; `before` tells that a digit comes first. -/
def underscoresSeparate (before : Bool) : List Char → Bool
  | [] => true
  | '_' :: c :: rest => before && c != '_' && underscoresSeparate false (c :: rest)
  | ['_'] => false
  | _ :: rest => underscoresSeparate true rest

/-- A number without a sign; its first characters can name a base, which counts as a digit. -/
def readNatural : List Char → Except ValueFault Nat
  | [] => .error .notANumber
  | '0' :: c :: d :: digits =>
    let base? := match c.toLower with
      | 'b' => some 2
      | 'o' => some 8
      | 'x' => some 16
      | _ => none
    match base? with
    | some base => do
      let number ← readDigits base (d :: digits) 0
      if underscoresSeparate true (d :: digits) then return number else .error .notANumber
    | none => do
      let number ← readDigits 8 (c :: d :: digits) 0
      if underscoresSeparate true (c :: d :: digits) then return number else .error .notANumber
  | '0' :: digits => do
    let number ← readDigits 8 digits 0
    if underscoresSeparate true digits then return number else .error .notANumber
  | digits => do
    let number ← readDigits 10 digits 0
    if underscoresSeparate false digits then return number else .error .notANumber

def readSigned : List Char → Except ValueFault Int
  | '-' :: digits => (readNatural digits).map fun number => -(number : Int)
  | '+' :: digits => (readNatural digits).map Int.ofNat
  | digits => (readNatural digits).map Int.ofNat

def readInteger (text : String) : Except ValueFault Int := do
  match Word.signed? (← readSigned text.toList) with
  | some number => return number
  | none => .error .numberTooLarge

def readTruthValue (text : String) : Except ValueFault Bool :=
  if ["1", "t", "T", "TRUE", "true", "True"].contains text then .ok true
  else if ["0", "f", "F", "FALSE", "false", "False"].contains text then .ok false
  else .error .notATruthValue

/-! Arguments. -/

namespace Options

def setFlag (options : Options) (flag : Flag) (value : String) : Except ValueFault Options :=
  match flag with
  | .logLevel => do return { options with logLevel := ← readInteger value }
  | .showTypes => do return { options with showTypes := ← readTruthValue value }
  | .dump => do return { options with dump := ← readTruthValue value }
  | .help => do return { options with help := ← readTruthValue value }

def set (options : Options) (flag : Flag) (value : String) : Except Error Options :=
  (options.setFlag flag value).mapError (.badValue flag value)

inductive Step where
  | done (options : Options)
  | awaits (options : Options) (flag : Flag) (missing : Error)

def longFlag (options : Options) (argument : String) (name : List Char) : Except Error Step :=
  match name with
  | [] | '-' :: _ | '=' :: _ => .error (.malformed argument)
  | name =>
    let key := String.ofList (name.takeWhile (· != '='))
    match Flag.ofName? key, name.dropWhile (· != '=') with
    | none, _ => .error (.unknownFlag key)
    | some flag, '=' :: value => do return .done (← options.set flag (String.ofList value))
    | some flag, _ =>
      match flag.implied? with
      | some value => do return .done (← options.set flag value)
      | none => .ok (.awaits options flag (.missingValue argument))

/-- An argument that starts with one dash: letters of flags, of which the last can have a value
right behind it. Flags of a test run, whose names start with `test.`, are passed over. -/
def letterFlags (options : Options) : List Char → Except Error Step
  | [] => .ok (.done options)
  | letter :: rest =>
    let letters := String.ofList (letter :: rest)
    if letters.startsWith "test." then .ok (.done options)
    else
      match Flag.ofLetter? letter, rest with
      | none, _ => .error (.unknownLetter (firstByte letters) letters)
      | some flag, '=' :: c :: value => do
        return .done (← options.set flag (String.ofList (c :: value)))
      | some flag, rest =>
        match flag.implied?, rest with
        | some value, rest => do letterFlags (← options.set flag value) rest
        | none, [] => .ok (.awaits options flag (.missingLetterValue letter letters))
        | none, value => do return .done (← options.set flag (String.ofList value))
where
  firstByte (text : String) : Char :=
    Char.ofNat ((text.toUTF8.toList.head?.map (·.toNat)).getD 0)

def step (options : Options) (argument : String) : Except Error Step :=
  match argument.toList with
  | '-' :: '-' :: name => options.longFlag argument name
  | '-' :: c :: letters => options.letterFlags (c :: letters)
  | _ => .ok (.done { options with paths := options.paths ++ [argument] })

def read (options : Options) : List String → Except Error Options
  | [] => .ok options
  | "--" :: rest => .ok { options with paths := options.paths ++ rest }
  | argument :: rest => do
    match ← options.step argument, rest with
    | .done options, rest => read options rest
    | .awaits _ _ missing, [] => .error missing
    | .awaits options flag _, value :: rest => read (← options.set flag value) rest

end Options

inductive Request where
  | help
  | check (options : Options) (path : String)
  deriving DecidableEq, Repr, Inhabited

/-- The request of a command line, which must have one path unless it asks for help. -/
def Request.ofArguments (arguments : List String) : Except Error Request := do
  let options ← Options.read {} arguments
  if options.help then return .help
  else
    match options.paths with
    | [path] => return .check options path
    | paths => .error (.pathCount paths.length)

end TypeSearch.CommandLine
