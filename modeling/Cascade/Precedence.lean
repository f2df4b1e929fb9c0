/-! A sequence ordered by precedence: what comes first is overridden by what
comes later. It grows at both ends. -/

namespace Cascade

structure Precedence (α : Type) where
  items : List α

namespace Precedence

variable {α : Type}

def empty : Precedence α := ⟨[]⟩

def ofList (items : List α) : Precedence α := ⟨items⟩

/-- Adds an item below all others. -/
def pushFront (s : Precedence α) (item : α) : Precedence α := ⟨item :: s.items⟩

/-- Adds items below all others, in their own order. -/
def pushFrontAll (s : Precedence α) (items : List α) : Precedence α := ⟨items ++ s.items⟩

/-- Adds an item above all others. -/
def pushBack (s : Precedence α) (item : α) : Precedence α := ⟨s.items ++ [item]⟩

def pushBackAll (s : Precedence α) (items : List α) : Precedence α := ⟨s.items ++ items⟩

def toList (s : Precedence α) : List α := s.items

def size (s : Precedence α) : Nat := s.items.length

@[simp] theorem toList_empty : (empty : Precedence α).toList = [] := rfl

@[simp] theorem toList_ofList (items : List α) : (ofList items).toList = items := rfl

@[simp] theorem toList_pushFront (s : Precedence α) (item : α) :
    (s.pushFront item).toList = item :: s.toList := rfl

@[simp] theorem toList_pushFrontAll (s : Precedence α) (items : List α) :
    (s.pushFrontAll items).toList = items ++ s.toList := rfl

@[simp] theorem toList_pushBack (s : Precedence α) (item : α) :
    (s.pushBack item).toList = s.toList ++ [item] := rfl

@[simp] theorem toList_pushBackAll (s : Precedence α) (items : List α) :
    (s.pushBackAll items).toList = s.toList ++ items := rfl

end Precedence

end Cascade
