/-!
Stacks, as lists with the top first.
-/

namespace TypeSearch

structure Stack (α : Type) where
  items : List α := []
  deriving Repr, Inhabited

namespace Stack

variable {α : Type}

def push (stack : Stack α) (item : α) : Stack α := ⟨item :: stack.items⟩

def peek? (stack : Stack α) : Option α := stack.items.head?

def pop (stack : Stack α) : Stack α := ⟨stack.items.tail⟩

def size (stack : Stack α) : Nat := stack.items.length

def any (stack : Stack α) (test : α → Bool) : Bool := stack.items.any test

def toList (stack : Stack α) : List α := stack.items.reverse

end Stack

end TypeSearch
