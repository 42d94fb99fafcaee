namespace CollationLint

structure Directory {α : Type} (key : α → String) where
  items : List α

namespace Directory

variable {α : Type} {key : α → String}

def empty : Directory key := ⟨[]⟩

def find? (d : Directory key) (name : String) : Option α := d.items.find? (key · = name)

/-- A newcomer takes the place of whatever had its name. -/
def insert (d : Directory key) (a : α) : Directory key := ⟨a :: d.items.filter (key · ≠ key a)⟩

def sorted (d : Directory key) : List α := d.items.mergeSort fun a b => key a ≤ key b

theorem key_of_find? {d : Directory key} {name : String} {a : α} (h : d.find? name = some a) :
    key a = name := by
  simpa using List.find?_some h

theorem find?_insert_self (d : Directory key) (a : α) : (d.insert a).find? (key a) = some a := by
  simp [insert, find?]

theorem find?_insert_of_ne (d : Directory key) {a : α} {name : String} (h : key a ≠ name) :
    (d.insert a).find? name = d.find? name := by
  simp only [insert, find?, List.find?_cons_of_neg, h, decide_false, Bool.false_eq_true, not_false_iff,
    List.find?_filter]
  congr 1
  funext b
  by_cases hb : key b = name
  · simp [hb, Ne.symm h]
  · simp [hb]

end Directory

end CollationLint
