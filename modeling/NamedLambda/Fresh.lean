import NamedLambda.Term.Basic

/-!
# Fresh names

A supply counts the names it has issued or passed over, and the count is part
of every name, so one supply never issues a name twice. A name is built from a
hint: the hint loses its trailing digits, so renaming `y` again and again gives
`y1`, `y2` and so on, and not `y12`.
-/

namespace NamedLambda

structure NameSupply where
  issued : Nat
deriving DecidableEq

namespace NameSupply

def new : NameSupply := ⟨0⟩

instance : Inhabited NameSupply := ⟨new⟩

/-- A hint of digits only, or of nothing, counts as `v`. -/
def stem (hint : Name) : Name :=
  let kept := hint.toList.reverse.dropWhile Char.isDigit
  if kept.isEmpty then "v" else String.ofList kept.reverse

def candidate (hint : Name) (k : Nat) : Name := stem hint ++ toString k

theorem candidate_inj {hint : Name} {j k : Nat} :
    candidate hint j = candidate hint k ↔ j = k := by
  constructor
  · intro h
    have digits : Nat.toDigits 10 j = Nat.toDigits 10 k := by
      simpa using congrArg String.toList ((String.append_right_inj _).1 h)
    simpa using congrArg (Nat.ofDigitChars 10 · 0) digits
  · rintro rfl
    rfl

/-- Candidates with different numbers differ, so a name that was hit can be
left out of the search for the next one. -/
def firstFree (hint : Name) (issued : Nat) (avoid : List Name) : Nat :=
  if candidate hint (issued + 1) ∈ avoid then
    firstFree hint (issued + 1) (avoid.erase (candidate hint (issued + 1)))
  else issued + 1
termination_by avoid.length
decreasing_by
  have := List.length_pos_of_mem ‹_›
  rw [List.length_erase_of_mem ‹_›]
  omega

theorem lt_firstFree (hint : Name) (issued : Nat) (avoid : List Name) :
    issued < firstFree hint issued avoid := by
  fun_induction firstFree with
  | case1 issued avoid _ ih => omega
  | case2 => omega

theorem firstFree_le (hint : Name) (issued : Nat) (avoid : List Name) :
    firstFree hint issued avoid ≤ issued + avoid.length + 1 := by
  fun_induction firstFree with
  | case1 issued avoid h ih =>
    have := List.length_pos_of_mem h
    rw [List.length_erase_of_mem h] at ih
    omega
  | case2 => omega

theorem candidate_firstFree_not_mem (hint : Name) (issued : Nat) (avoid : List Name) :
    candidate hint (firstFree hint issued avoid) ∉ avoid := by
  fun_induction firstFree with
  | case1 issued avoid h ih =>
    have := lt_firstFree hint (issued + 1) (avoid.erase (candidate hint (issued + 1)))
    have hne := mt (@candidate_inj hint _ _).1 (Nat.ne_of_gt this)
    rwa [List.mem_erase_of_ne hne] at ih
  | case2 => assumption

/-- A name that is not in `avoid`, and the supply after it. -/
def fresh (hint : Name) (avoid : OrderedSet Name) (names : NameSupply) : Name × NameSupply :=
  let k := firstFree hint names.issued avoid.elems
  (candidate hint k, ⟨k⟩)

theorem fresh_not_mem (hint : Name) (avoid : OrderedSet Name) (names : NameSupply) :
    (names.fresh hint avoid).1 ∉ avoid :=
  candidate_firstFree_not_mem hint names.issued avoid.elems

theorem issued_lt_fresh (hint : Name) (avoid : OrderedSet Name) (names : NameSupply) :
    names.issued < (names.fresh hint avoid).2.issued :=
  lt_firstFree ..

theorem issued_fresh_le (hint : Name) (avoid : OrderedSet Name) (names : NameSupply) :
    (names.fresh hint avoid).2.issued ≤ names.issued + avoid.size + 1 :=
  firstFree_le ..

end NameSupply

end NamedLambda
