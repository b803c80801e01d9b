/-!
A set that keeps the order of insertion and finds its elements by buckets of equal hash. Elements
in one bucket are told apart by `same`, so which elements are kept does not depend on the hash.
-/

namespace TypeSearch

structure Hashing (α : Type) where
  hash : α → UInt32
  same : α → α → Bool

structure BucketSet (α : Type) where
  items : Array α
  /-- The positions of the items of each hash. The first entry of a hash holds all of them. -/
  buckets : List (UInt32 × List Nat)

namespace BucketSet

variable {α : Type}

def empty : BucketSet α := ⟨#[], []⟩

def bucket (set : BucketSet α) (hash : UInt32) : List Nat := (set.buckets.lookup hash).getD []

def contains (hashing : Hashing α) (set : BucketSet α) (item : α) : Bool :=
  (set.bucket (hashing.hash item)).any fun position =>
    match set.items[position]? with
    | some other => hashing.same other item
    | none => false

def insert (hashing : Hashing α) (set : BucketSet α) (item : α) : BucketSet α :=
  if set.contains hashing item then set
  else
    let hash := hashing.hash item
    { items := set.items.push item
      buckets := (hash, set.bucket hash ++ [set.items.size]) :: set.buckets }

def insertAll (hashing : Hashing α) (set : BucketSet α) (items : List α) : BucketSet α :=
  items.foldl (insert hashing) set

def ofList (hashing : Hashing α) (items : List α) : BucketSet α := empty.insertAll hashing items

def toList (set : BucketSet α) : List α := set.items.toList

def size (set : BucketSet α) : Nat := set.items.size

end BucketSet

end TypeSearch
