/-!
Texts out of bytes, and bytes out of letters.
-/

namespace TypeSearch.Text

def charOfBytes? (bytes : List UInt8) : Option (Char × Nat) :=
  [1, 2, 3, 4].findSome? fun count => do
    let text ← String.fromUTF8? ⟨(bytes.take count).toArray⟩
    match text.toList with
    | [c] => some (c, c.utf8Size)
    | _ => none

def charsOfBytes : (fuel : Nat) → List UInt8 → List Char
  | 0, _ => []
  | _, [] => []
  | fuel + 1, byte :: bytes =>
    match charOfBytes? (byte :: bytes) with
    | some (c, count) => c :: charsOfBytes fuel (bytes.drop (count - 1))
    | none => '\ufffd' :: charsOfBytes fuel bytes

/-- The text that bytes stand for. A byte that belongs to no character stands for the replacement
character. -/
def ofBytes (bytes : List UInt8) : String := String.ofList (charsOfBytes bytes.length bytes)

namespace Base64

def digit? (c : Char) : Option Nat :=
  if 'A' ≤ c ∧ c ≤ 'Z' then some (c.toNat - 'A'.toNat)
  else if 'a' ≤ c ∧ c ≤ 'z' then some (c.toNat - 'a'.toNat + 26)
  else if c.isDigit then some (c.toNat - '0'.toNat + 52)
  else if c == '+' then some 62
  else if c == '/' then some 63
  else none

/-- The first `count` of the three bytes that four letters stand for. -/
def bytesOf (count : Nat) (letters : List Char) : Option (List UInt8) := do
  let bits ← letters.foldlM (fun bits c => (digit? c).map (bits * 64 + ·)) 0
  return [bits / 65536, bits / 256, bits].take count |>.map (·.toUInt8)

/-- Four letters at a time; the last ones can be signs that fill up. -/
def decodeGroups : List Char → Option (List UInt8)
  | [] => some []
  | [a, b, '=', '='] => bytesOf 1 [a, b, 'A', 'A']
  | [a, b, c, '='] => bytesOf 2 [a, b, c, 'A']
  | a :: b :: c :: d :: rest => do return (← bytesOf 3 [a, b, c, d]) ++ (← decodeGroups rest)
  | _ => none

/-- The text that letters stand for. Line breaks among them do not count. -/
def decode? (text : String) : Option String :=
  (decodeGroups (text.toList.filter fun c => c != '\n' && c != '\r')).map ofBytes

end Base64

end TypeSearch.Text
