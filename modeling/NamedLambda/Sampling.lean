import NamedLambda.Term.Basic

/-!
# Random closed terms

Numbers come from a linear congruential generator on words of 64 bits. Binder names come from a
small pool, so shadowing and clashes of names are common in the terms drawn.
-/

namespace NamedLambda

structure Random where
  state : UInt64
deriving DecidableEq

/-- A computation that draws numbers. -/
abbrev Draw := StateM Random

namespace Random

def ofSeed (seed : UInt64) : Random := ⟨seed + 1⟩

def next : Draw UInt64 := fun r =>
  let state := r.state * 6364136223846793005 + 1442695040888963407
  (state >>> 16, ⟨state⟩)

/-- A number from `low` up to but not including `high`. An empty range gives
`low` and draws nothing. -/
def range (low high : Nat) : Draw Nat :=
  if low ≥ high then return low
  else return low + (← next).toNat % (high - low)

theorem range_lt {low high : Nat} (h : low < high) (r : Random) :
    low ≤ ((range low high).run r).1 ∧ ((range low high).run r).1 < high := by
  rw [range, if_neg (by omega)]
  show low ≤ low + (next r).1.toNat % (high - low) ∧ low + (next r).1.toNat % (high - low) < high
  have := Nat.mod_lt (next r).1.toNat (show 0 < high - low by omega)
  omega

/-- An index into so many entries. The number of entries is taken as a word of 32
bits. -/
def index (count : Nat) : Draw Nat := range 0 (count % UInt32.size)

theorem index_lt {count : Nat} (h : 0 < count) (r : Random) : ((index count).run r).1 < count := by
  rw [index]
  by_cases hword : count % UInt32.size = 0
  · rw [hword]
    exact h
  · exact Nat.lt_of_lt_of_le (range_lt (Nat.pos_of_ne_zero hword) r).2 (Nat.mod_le ..)

end Random

/-- Bounds on the terms drawn. Above depth `minDepth` no variable is drawn by
choice; terms larger than `maxSize` are drawn again. -/
structure Limits where
  maxDepth : Nat := 8
  minDepth : Nat := 3
  maxSize : Nat := 100
deriving DecidableEq, Inhabited

namespace Limits

def binders : List Name := ["x", "y", "z", "f", "g"]

/-- The name at an index that is drawn. There is none if the index is out of range, and
then the whole draw fails. -/
def drawFrom (names : List Name) : OptionT Draw Name :=
  .mk do return names[← Random.index names.length]?

/-- One of the names in scope; nothing is drawn where there is none. -/
def drawVariable (scope : List Name) : OptionT Draw (Option Name) :=
  if scope.isEmpty then return none else some <$> drawFrom scope

/-- An abstraction, with the body that is drawn for its binder and the scope under it. -/
def drawAbs (scope : List Name) (drawBody : Name → List Name → OptionT Draw Term) :
    OptionT Draw Term := do
  let p ← drawFrom binders
  return .abs p (← drawBody p (scope ++ [p]))

/-- Draws a term at a depth that leaves room for so many levels below it.
`scope` holds the binders around it, the outermost first. -/
def drawTerm (limits : Limits) : (room depth : Nat) → (scope : List Name) → OptionT Draw Term
  | 0, _, scope => do
    match ← drawVariable scope with
    | some x => return .var x
    | none => drawAbs scope fun p _ => return .var p
  | room + 1, depth, scope => do
    let choice ← Random.range (if depth < limits.minDepth then 2 else 0) 10
    if choice ≤ 1 && !scope.isEmpty then
      match ← drawVariable scope with
      | some x => return .var x
      | none => drawAbs scope fun _ => limits.drawTerm room (depth + 1)
    else if choice ≤ 5 || scope.isEmpty then
      drawAbs scope fun _ => limits.drawTerm room (depth + 1)
    else
      let func ← limits.drawTerm room (depth + 1) scope
      return .app func (← limits.drawTerm room (depth + 1) scope)

def attempt (limits : Limits) : (attempts : Nat) → OptionT Draw (Option Term)
  | 0 => return none
  | attempts + 1 => do
    let t ← limits.drawTerm (limits.maxDepth - 1) 0 []
    if t.size ≤ limits.maxSize then return some t else limits.attempt attempts

/-- A closed term, if a hundred attempts give one that is small enough. -/
def draw (limits : Limits) : Draw (Option Term) := return (← (limits.attempt 100).run).join

def drawSeed (seed : UInt64) (index : Nat) : UInt64 :=
  (seed + UInt64.ofNat index) * 0x9e3779b97f4a7c15

/-- Draws `count` times. Each draw has a seed of its own, so it does not depend
on the draws before it; failed draws are left out. -/
def drawMany (limits : Limits) (count : Nat) (seed : UInt64) : List Term :=
  (List.range count).filterMap fun i => (limits.draw.run (.ofSeed (drawSeed seed i))).1

end Limits

end NamedLambda
