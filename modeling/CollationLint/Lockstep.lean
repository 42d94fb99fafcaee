namespace CollationLint

inductive Slot (α β : Type) where
  | both (a : α) (b : β)
  | left (a : α)
  | right (b : β)
  deriving DecidableEq

namespace Lockstep

variable {α β : Type}

def align : List α → List β → List (Slot α β)
  | [], bs => bs.map .right
  | as, [] => as.map .left
  | a :: as, b :: bs => .both a b :: align as bs

def agreeM {m : Type → Type} [Monad m] (p : α → β → m Bool) (as : List α) (bs : List β) : m Bool :=
  (align as bs).allM fun
    | .both a b => p a b
    | .left _ | .right _ => pure false

def agree (p : α → β → Bool) : List α → List β → Bool
  | [], [] => true
  | a :: as, b :: bs => p a b && agree p as bs
  | _, _ => false

def asking (p : α → β → Bool) (a : α) (b : β) : StateM (List (α × β)) Bool := fun asked =>
  (p a b, asked ++ [(a, b)])

def agreeAsking (p : α → β → Bool) (as : List α) (bs : List β) : Bool × List (α × β) :=
  agreeM (asking p) as bs []

theorem agreeM_asking_fst (p : α → β → Bool) (as : List α) (bs : List β) (asked : List (α × β)) :
    (agreeM (asking p) as bs asked).1 = agree p as bs := by
  unfold agreeM
  induction as generalizing bs asked with
  | nil => cases bs <;> rfl
  | cons a as ih =>
    cases bs with
    | nil => rfl
    | cons b bs =>
      rw [align, List.allM, agree]
      cases h : p a b with
      | false =>
        simp only [asking, bind, StateT.bind, h]
        rfl
      | true => simpa [asking, bind, StateT.bind, h] using ih bs (asked ++ [(a, b)])

theorem agreeAsking_fst (p : α → β → Bool) (as : List α) (bs : List β) :
    (agreeAsking p as bs).1 = agree p as bs := agreeM_asking_fst p as bs []

end Lockstep

end CollationLint
