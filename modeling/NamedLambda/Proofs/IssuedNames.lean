import Mathlib
import NamedLambda.Fresh

/-!
# The names that one supply issues

A stem is not empty and ends in no digit, so the number of a name can be read off its end,
whatever hint the name was made from (`NameSupply.number_eq_of_candidate_eq`). Every request
moves the counter on, and by at most one for each name to avoid and one more. So no two names
from one supply are the same (`NameSupply.nameAt_injective`).
-/

namespace NamedLambda

namespace NameSupply

theorem stem_ne_empty (hint : Name) : stem hint ≠ "" := by
  rw [stem]
  split
  · decide
  · next h => simpa using h

theorem dropWhile_stem (hint : Name) :
    (stem hint).toList.reverse.dropWhile Char.isDigit = (stem hint).toList.reverse := by
  rw [stem]
  split
  · decide
  · rw [String.toList_ofList, List.reverse_reverse, List.dropWhile_idempotent]

theorem stem_candidate (hint : Name) (k : Nat) : stem (candidate hint k) = stem hint := by
  have digits : ∀ c ∈ (toString k).toList.reverse, c.isDigit = true := fun c hc =>
    Nat.isDigit_of_mem_toDigits (b := 10) (by decide) (by decide) (by simpa using hc)
  have kept : (candidate hint k).toList.reverse.dropWhile Char.isDigit =
      (stem hint).toList.reverse := by
    rw [candidate, String.toList_append, List.reverse_append, List.dropWhile_append_of_pos digits,
      dropWhile_stem]
  rw [stem]
  simp only [kept]
  simp [stem_ne_empty]

theorem candidate_candidate (hint : Name) (j k : Nat) :
    candidate (candidate hint j) k = candidate hint k := by
  rw [candidate, stem_candidate, candidate]

theorem number_eq_of_candidate_eq {hint hint' : Name} {j k : Nat}
    (h : candidate hint j = candidate hint' k) : j = k := by
  have hstem : stem hint = stem hint' := by
    calc stem hint
      _ = stem (candidate hint j) := (stem_candidate hint j).symm
      _ = stem (candidate hint' k) := by rw [h]
      _ = stem hint' := stem_candidate hint' k
  refine (@candidate_inj hint j k).1 (h.trans ?_)
  rw [candidate, candidate, hstem]

theorem candidate_mem_of_lt_firstFree {hint : Name} {issued k : Nat} {avoid : List Name}
    (h : issued < k) (hk : k < firstFree hint issued avoid) : candidate hint k ∈ avoid := by
  fun_induction firstFree with
  | case1 issued avoid hmem ih =>
    rcases Nat.lt_or_eq_of_le (Nat.succ_le_of_lt h) with hlt | rfl
    · exact List.mem_of_mem_erase (ih hlt hk)
    · exact hmem
  | case2 => omega

theorem isLeast_issued_fresh (hint : Name) (avoid : OrderedSet Name) (names : NameSupply) :
    IsLeast {k | names.issued < k ∧ candidate hint k ∉ avoid} (names.fresh hint avoid).2.issued := by
  constructor
  · exact ⟨names.issued_lt_fresh hint avoid, names.fresh_not_mem hint avoid⟩
  · rintro k ⟨hlt, hfree⟩
    by_contra hk
    exact hfree (candidate_mem_of_lt_firstFree hlt (Nat.lt_of_not_le hk))

/-- A name is asked for by a hint and the names that it must not be. -/
structure Request where
  hint : Name
  avoid : OrderedSet Name

def supplyAfter (names : NameSupply) (requests : Nat → Request) : Nat → NameSupply
  | 0 => names
  | i + 1 => ((names.supplyAfter requests i).fresh (requests i).hint (requests i).avoid).2

/-- The answer to a request of a sequence. -/
def nameAt (names : NameSupply) (requests : Nat → Request) (i : Nat) : Name :=
  ((names.supplyAfter requests i).fresh (requests i).hint (requests i).avoid).1

theorem nameAt_eq (names : NameSupply) (requests : Nat → Request) (i : Nat) :
    names.nameAt requests i =
      candidate (requests i).hint (names.supplyAfter requests (i + 1)).issued := rfl

theorem strictMono_issued (names : NameSupply) (requests : Nat → Request) :
    StrictMono fun i => (names.supplyAfter requests i).issued :=
  strictMono_nat_of_lt_succ fun _ => issued_lt_fresh ..

/-- Every request of a sequence is answered with the first candidate that need not be avoided,
and the counter goes on to its number. All the names are different. -/
theorem nameAt_injective (names : NameSupply) (requests : Nat → Request) :
    (∀ i,
      let issued := (names.supplyAfter requests i).issued
      let issued' := (names.supplyAfter requests (i + 1)).issued
      IsLeast {k | issued < k ∧ candidate (requests i).hint k ∉ (requests i).avoid} issued' ∧
        names.nameAt requests i = candidate (requests i).hint issued' ∧
        names.nameAt requests i ∉ (requests i).avoid ∧
        issued + 1 ≤ issued' ∧ issued' ≤ issued + (requests i).avoid.size + 1) ∧
    Function.Injective (names.nameAt requests) := by
  constructor
  · intro i
    exact ⟨isLeast_issued_fresh .., rfl, fresh_not_mem _ _ _, issued_lt_fresh ..,
      issued_fresh_le ..⟩
  · intro i j h
    rw [nameAt_eq, nameAt_eq] at h
    exact Nat.succ.inj ((names.strictMono_issued requests).injective (number_eq_of_candidate_eq h))

/-- A hint may be an earlier name, and one of digits only counts as `v`. -/
example :
    let requests : Nat → Request
      | 0 => ⟨"y", .singleton "y1"⟩
      | 1 => ⟨"y2", ∅⟩
      | 2 => ⟨"42", .singleton "v3"⟩
      | _ => ⟨"", ∅⟩
    (List.range 4).map (new.nameAt requests) = ["y2", "y3", "v4", "v5"] := by cbv

end NameSupply

end NamedLambda
