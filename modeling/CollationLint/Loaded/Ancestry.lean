import CollationLint.Loaded.Hierarchy

namespace CollationLint

namespace LoadedType

def accepts (t candidate : LoadedType) : Bool :=
  if t == candidate || t.isRoot then true
  else if t.isInterface then candidate.allInterfaces.contains t
  else candidate.baseTypes.contains t

/-- Whether `t` is `ancestor`, inherits from it or implements it. An ancestor that is still generic
stands for each of its constructions. -/
def derivesFrom (t ancestor : LoadedType) : Bool :=
  if t == ancestor || ancestor.isRoot then true
  else if ancestor.isGenericDefinition then
    let candidates := if ancestor.isInterface then t :: t.allInterfaces else t.baseTypes
    candidates.any fun c => c.definition?.any (· == ancestor)
  else ancestor.accepts t

end LoadedType

structure AncestryMemo where
  entries : List ((Identity × Identity) × Bool) := []

namespace AncestryMemo

def empty : AncestryMemo := {}

def size (memo : AncestryMemo) : Nat := memo.entries.length

def find? (memo : AncestryMemo) (t ancestor : LoadedType) : Option Bool :=
  memo.entries.lookup (t.identity, ancestor.identity)

/-- Whether `t` derives from `ancestor`. The first answer given for a pair is kept for good. -/
def derivesFrom (t ancestor : LoadedType) : StateM AncestryMemo Bool := fun memo =>
  match memo.find? t ancestor with
  | some answer => (answer, memo)
  | none =>
    let answer := t.derivesFrom ancestor
    (answer, ⟨((t.identity, ancestor.identity), answer) :: memo.entries⟩)

end AncestryMemo

end CollationLint
