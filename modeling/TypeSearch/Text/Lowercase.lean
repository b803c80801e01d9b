/-!
Lowercase letters of Unicode.
-/

namespace TypeSearch.Text

/-- Runs of lowercase letters, with three numbers for each: how many codes are left out before it,
how many it goes over, and the distance from one letter to the next. -/
def lowercaseRuns : List Nat := [
  97,26,1,58,1,1,41,24,1,1,8,1,1,55,2,0,17,2,0,47,2,2,5,2,0,2,1,2,3,2,2,1,1,3,2,1,4,1,1,2,1,1,3,3,1,
  2,1,1,2,5,2,2,3,2,0,3,2,2,1,1,3,3,2,2,2,1,2,3,1,6,1,1,2,1,1,2,17,2,0,19,2,0,1,1,2,3,2,3,59,2,0,6,
  1,2,1,1,2,2,1,1,1,1,4,9,2,0,68,1,2,26,1,193,3,2,3,1,1,3,3,1,18,1,1,27,35,1,1,2,1,3,3,1,1,23,2,0,4,
  1,1,1,1,2,1,1,2,2,1,51,48,1,1,33,2,9,53,2,2,13,2,0,97,2,48,41,1,2887,43,1,2,3,1,760,6,1,2178,9,1,
  1,1,1,117,44,1,63,13,1,1,34,1,102,149,2,0,8,1,1,97,2,0,8,1,8,6,1,10,8,1,8,8,1,8,6,1,10,8,1,8,8,1,
  8,14,1,2,8,1,8,8,1,8,8,1,8,5,1,1,2,1,6,1,1,3,3,1,1,2,1,8,4,1,2,2,1,8,8,1,10,3,1,1,2,1,274,1,1,3,2,
  1,3,1,1,27,1,1,4,1,1,4,1,1,2,2,1,8,4,1,4,1,1,53,1,1,2731,48,1,1,1,1,3,2,1,1,5,2,4,3,2,0,3,2,0,5,1,
  5,99,2,0,1,1,7,3,2,4,1,1,12,38,1,1,1,1,5,1,1,30995,45,2,19,27,2,135,13,2,0,2,1,1,63,2,0,7,1,1,3,2,
  2,9,2,4,3,2,2,3,2,0,2,1,1,19,2,5,1,1,5,15,2,4,3,2,2,15,2,26,1,1,3,1,1,821,43,1,5,9,1,7,80,1,20288,
  7,1,12,5,1,1065,26,1,1229,40,1,136,36,1,155,11,1,1,15,1,1,7,1,1,2,1,1795,51,1,125,22,1,2874,32,1,
  21888,32,1,59,25,1,25926,26,1,26,7,1,1,18,1,26,26,1,26,4,1,1,3,2,0,6,1,1,11,1,26,26,1,26,26,1,26,
  26,1,26,26,1,26,26,1,26,26,1,26,26,1,26,26,1,26,28,1,28,25,1,1,6,1,26,25,1,1,6,1,26,25,1,1,6,1,26,
  25,1,1,6,1,26,25,1,1,6,1,1,1,1,1844,10,1,1,20,1,6,6,1,2551,34,1]

def inLetters (code : Nat) : List Nat → Bool
  | before :: length :: distance :: runs =>
    if code < before then false
    else if code - before < length then (code - before) % distance == 0
    else inLetters (code - before - length) runs
  | _ => false

def isLowercase (c : Char) : Bool := inLetters c.toNat lowercaseRuns

end TypeSearch.Text
