import CollationLint.Proofs.Agreement

namespace CollationLint

namespace Forest

variable {f g : Forest}

theorem ancestors_congr (h : ∀ j, f.parent? j = g.parent? j) (i : Nat) : f.ancestors i = g.ancestors i := by
  fun_induction f.ancestors i with
  | case1 i hp => rw [ancestors_of_none ((h i).symm.trans hp)]
  | case2 i p hp ih => rw [ih, ancestors_of_some ((h i).symm.trans hp)]

theorem inScope_congr (hp : ∀ j, f.parent? j = g.parent? j) (hk : ∀ j, f.kind? j = g.kind? j)
    (entryPoints : List LoadedType) (i : Nat) : f.inScope entryPoints i = g.inScope entryPoints i := by
  have hf : f.isFunction = g.isFunction := by funext j; rw [isFunction, isFunction, hk]
  have ht : f.target? = g.target? := by funext j; rw [target?, target?, hk]
  simp only [inScope, ancestors_congr hp, hf, ht]

end Forest

def exchanged : List Nat → List Nat
  | a :: b :: cs => b :: a :: cs
  | cs => cs

theorem exchanged_perm (cs : List Nat) : (exchanged cs).Perm cs := by
  rcases cs with _ | ⟨a, _ | ⟨b, cs⟩⟩
  · exact .refl _
  · exact .refl _
  · exact .swap a b cs

namespace Arena

def exchange (a : Arena) (i : Nat) : Arena :=
  ⟨a.entries.modify i fun e => { e with children := exchanged e.children }⟩

variable (a : Arena) (i j : Nat)

theorem parent?_exchange : (a.exchange i).parent? j = a.parent? j := by
  rw [parent?, exchange, Array.getElem?_modify, parent?]
  split
  · cases a.entries[j]? <;> rfl
  · rfl

theorem node?_exchange : (a.exchange i).node? j =
    (a.node? j).map fun n => if j = i then { n with children := exchanged n.children } else n := by
  rw [node?, exchange, Array.getElem?_modify, node?]
  by_cases hj : i = j
  · cases a.entries[j]? <;> simp [hj]
  · cases a.entries[j]? <;> simp [hj, Ne.symm hj]

theorem children_exchange :
    (a.exchange i).children j = if j = i then exchanged (a.children j) else a.children j := by
  rw [children, node?_exchange, children]
  cases a.node? j with
  | none => simp [exchanged]
  | some n => by_cases hj : j = i <;> simp [hj]

theorem children_exchange_perm : ((a.exchange i).children j).Perm (a.children j) := by
  rw [children_exchange]
  split
  · exact exchanged_perm _
  · exact .refl _

variable {a}

theorem Linked.exchange (hl : a.Linked) : (a.exchange i).Linked where
  parent_iff c p := by rw [parent?_exchange, hl.parent_iff, (a.children_exchange_perm i p).mem_iff]
  nodup p := (a.children_exchange_perm i p).nodup_iff.2 (hl.nodup p)
  descending p c h := hl.descending p c ((a.children_exchange_perm i p).mem_iff.1 h)

end Arena

namespace Forest

def exchange (f : Forest) (i : Nat) : Forest := ⟨f.toArena.exchange i, f.linked.exchange i⟩

variable (f : Forest) (i : Nat)

theorem kind?_exchange (j : Nat) : (f.exchange i).kind? j = f.kind? j := by
  rw [kind?, exchange, Arena.node?_exchange, kind?, Option.map_map]
  congr 1
  funext n
  simp only [Function.comp_apply]
  split <;> rfl

theorem agreeBelow_exchange : AgreeBelow i f (f.exchange i) := by
  intro j hj
  rw [exchange, Arena.node?_exchange]
  simp [Nat.ne_of_lt hj]

theorem inScope_exchange (entryPoints : List LoadedType) (j : Nat) :
    (f.exchange i).inScope entryPoints j = f.inScope entryPoints j :=
  inScope_congr (f.toArena.parent?_exchange i) (f.kind?_exchange i) entryPoints j

variable {f}

theorem Filled.exchange (hf : f.Filled) : (f.exchange i).Filled := by
  intro j hc
  rw [isConversion, kind?_exchange] at hc
  obtain ⟨c, hj⟩ := hf j hc
  have hmem : c ∈ (f.exchange i).children j :=
    (f.toArena.children_exchange_perm i j).mem_iff.2 (List.mem_of_getElem? hj)
  cases hl : (f.exchange i).children j with
  | nil => rw [hl] at hmem; cases hmem
  | cons d ds => exact ⟨d, by rw [Arena.child?, hl]; rfl⟩

end Forest

end CollationLint
