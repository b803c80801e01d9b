import TypeSearch.BucketSet
import TypeSearch.Fnv
import TypeSearch.Type.Basic

/-!
Hashes of types and the union of types: unions among the members are replaced by their own members,
members equal to an earlier one are dropped, and a union of one type is that type.
-/

namespace TypeSearch.Ty

mutual

def hash : Ty → UInt64
  | var v => Fnv.word (Fnv.text Fnv.offsetBasis "Variable") v.id
  | parametric name params =>
    hashOnto (Fnv.text (Fnv.text Fnv.offsetBasis "Parametric") name) params
  | curried params => hashOnto (Fnv.text Fnv.offsetBasis "Curried") params
  | union members => hashOnto (Fnv.text Fnv.offsetBasis "Union") members

def hashOnto (digest : UInt64) : List Ty → UInt64
  | [] => digest
  | t :: ts => hashOnto (Fnv.word digest (hash t)) ts

end

def hash32 (t : Ty) : UInt32 := Fnv.fold32 t.hash

def hashing : Hashing Ty := ⟨hash32, same⟩

/-- The members of a union, and any other type as its own only member. -/
def alternatives : Ty → List Ty
  | union members => members
  | t => [t]

def unionOf (members : List Ty) : Ty :=
  match (BucketSet.ofList hashing (members.flatMap alternatives)).toList with
  | [t] => t
  | distinct => union distinct

end TypeSearch.Ty
