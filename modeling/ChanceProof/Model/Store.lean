import ChanceProof.Model.Basic

/-!
# The object store

Objects are kept under ascending numbers that are never used again, each with a reference count of
at least one. An object whose count reaches zero is gone. A failing operation changes nothing.

Numbers and counts have no largest one here. They are taken to stay within 64 bits: what happens to
a store whose numbers or counts would leave them is not described.
-/

namespace ChanceProof

/-- An object and how many references to it are owned. -/
structure Stored where
  value : Json
  count : Int
deriving DecidableEq

/-- The live objects by number, and the number of the next one. -/
structure Store where
  objects : List (Nat × Stored)
  next : Nat
deriving DecidableEq, Inhabited

namespace Store

def empty : Store := ⟨[], 0⟩

def get? (s : Store) (h : Handle) : Option Stored := s.objects.lookup h.number

def count? (s : Store) (h : Handle) : Option Int := (s.get? h).map (·.count)

def live (s : Store) : Nat := s.objects.length

/-- Add an object with a count of one. -/
def intern (s : Store) (value : Json) : Handle × Store :=
  (⟨s.next⟩, ⟨(s.next, ⟨value, 1⟩) :: s.objects, s.next + 1⟩)

def setCount (s : Store) (h : Handle) (count : Int) : Store :=
  { s with objects := s.objects.map fun (n, o) =>
      if n = h.number then (n, { o with count }) else (n, o) }

def erase (s : Store) (h : Handle) : Store :=
  { s with objects := s.objects.filter fun e => e.1 != h.number }

@[simp] theorem get?_empty (h : Handle) : empty.get? h = none := rfl

@[simp] theorem get?_intern_self (s : Store) (value : Json) :
    (s.intern value).2.get? (s.intern value).1 = some ⟨value, 1⟩ := by
  simp [intern, get?]

theorem get?_intern_of_ne (s : Store) (value : Json) {h : Handle} (hne : h.number ≠ s.next) :
    (s.intern value).2.get? h = s.get? h := by
  have hkey : (h.number == s.next) = false := by simpa using hne
  simp [intern, get?, List.lookup_cons, hkey]

@[simp] theorem get?_erase_self (s : Store) (h : Handle) : (s.erase h).get? h = none := by
  simp only [erase, get?]
  induction s.objects with
  | nil => rfl
  | cons e rest ih =>
    by_cases hkey : e.1 = h.number
    · simp [hkey, ih]
    · have hne : (h.number == e.1) = false := by simpa using Ne.symm hkey
      rw [List.filter_cons_of_pos (by simpa using hkey), List.lookup_cons, hne]
      exact ih

theorem get?_erase_of_ne (s : Store) {h other : Handle} (hne : other ≠ h) :
    (s.erase h).get? other = s.get? other := by
  have hnumber : other.number ≠ h.number := fun e => hne (by cases other; cases h; simpa using e)
  simp only [erase, get?]
  induction s.objects with
  | nil => rfl
  | cons e rest ih =>
    by_cases hkey : e.1 = h.number
    · have hother : (other.number == e.1) = false := by simpa [hkey] using hnumber
      rw [List.filter_cons_of_neg (by simpa using hkey), List.lookup_cons, hother]
      exact ih
    · rw [List.filter_cons_of_pos (by simpa using hkey), List.lookup_cons, List.lookup_cons, ih]

theorem get?_setCount_self (s : Store) (h : Handle) (count : Int) :
    (s.setCount h count).get? h = (s.get? h).map fun o => { o with count } := by
  simp only [setCount, get?]
  induction s.objects with
  | nil => rfl
  | cons e rest ih =>
    by_cases hkey : e.1 = h.number
    · have hsame : (h.number == e.1) = true := by simpa using hkey.symm
      rw [List.map_cons, if_pos hkey, List.lookup_cons, List.lookup_cons]
      simp [hsame]
    · have hne : (h.number == e.1) = false := by simpa using Ne.symm hkey
      rw [List.map_cons, if_neg hkey, List.lookup_cons, List.lookup_cons, hne]
      exact ih

theorem get?_setCount_of_ne (s : Store) {h other : Handle} (count : Int) (hne : other ≠ h) :
    (s.setCount h count).get? other = s.get? other := by
  have hnumber : other.number ≠ h.number := fun e => hne (by cases other; cases h; simpa using e)
  simp only [setCount, get?]
  induction s.objects with
  | nil => rfl
  | cons e rest ih =>
    by_cases hkey : e.1 = h.number
    · have hother : (other.number == e.1) = false := by simpa [hkey] using hnumber
      rw [List.map_cons, if_pos hkey, List.lookup_cons, List.lookup_cons, hother]
      exact ih
    · rw [List.map_cons, if_neg hkey, List.lookup_cons, List.lookup_cons, ih]

def object (h : Handle) : Action Store Stored := do
  match (← get).get? h with
  | some o => return o
  | none => throw (.unknownReference h.number)

def add (value : Json) : Action Store Handle := do
  let (h, s) := (← get).intern value
  set s
  return h

/-- Add to the count of an object, which may not fall below zero. At zero the object goes. The old
count, the change and the new count are taken to stay within 64 bits, signed; a sum that would not
is not treated as an overflow but like any other. -/
def modifyCount (h : Handle) (delta : Int) : Action Store Unit := do
  let count := (← object h).count + delta
  if count < 0 then throw (.invalidReferenceCount h.number count)
  else if count = 0 then modify (·.erase h)
  else modify (·.setCount h count)

end Store

end ChanceProof
