/-!
Whole numbers written in a base between 2 and 36.
-/

namespace TypeSearch

namespace Digits

def value? (base : Nat) (c : Char) : Option Nat :=
  let digit :=
    if c.isDigit then c.toNat - '0'.toNat
    else if c.isLower then c.toNat - 'a'.toNat + 10
    else if c.isUpper then c.toNat - 'A'.toNat + 10
    else base
  if digit < base then some digit else none

def nat? (base : Nat) : List Char → Option Nat
  | [] => none
  | digits => digits.foldlM (fun number c => (value? base c).map (number * base + ·)) 0

def int? (base : Nat) : List Char → Option Int
  | '-' :: digits => (nat? base digits).map fun n => -(n : Int)
  | '+' :: digits => (nat? base digits).map Int.ofNat
  | digits => (nat? base digits).map Int.ofNat

def literal? : List Char → Option Nat
  | '0' :: 'x' :: digits | '0' :: 'X' :: digits => nat? 16 digits
  | '0' :: 'b' :: digits | '0' :: 'B' :: digits => nat? 2 digits
  | '0' :: 'o' :: digits | '0' :: 'O' :: digits => nat? 8 digits
  | '0' :: c :: digits => nat? 8 (c :: digits)
  | digits => nat? 10 digits

end Digits

end TypeSearch
