import TypeSearch.Text.Printable

/-!
Texts between double quotes, where all that is not printable is escaped.
-/

namespace TypeSearch.Text

def hexDigits (width code : Nat) : String :=
  let digits := String.ofList (Nat.toDigits 16 code)
  String.ofList (List.replicate (width - digits.length) '0') ++ digits

def escapeChar (mark c : Char) : String :=
  if c == mark || c == '\\' then "\\" ++ c.toString
  else if isPrintable c then c.toString
  else match c with
    | '\x07' => "\\a"
    | '\x08' => "\\b"
    | '\x0c' => "\\f"
    | '\n' => "\\n"
    | '\r' => "\\r"
    | '\t' => "\\t"
    | '\x0b' => "\\v"
    | c =>
      if c.toNat < 0x20 ∨ c.toNat = 0x7F then "\\x" ++ hexDigits 2 c.toNat
      else if c.toNat < 0x10000 then "\\u" ++ hexDigits 4 c.toNat
      else "\\U" ++ hexDigits 8 c.toNat

def quote (text : String) : String :=
  "\"" ++ String.join (text.toList.map (escapeChar '"')) ++ "\""

def quoteChar (c : Char) : String := "'" ++ escapeChar '\x27' c ++ "'"

end TypeSearch.Text
