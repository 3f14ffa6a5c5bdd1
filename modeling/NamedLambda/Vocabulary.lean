import NamedLambda.Decimal
import NamedLambda.Term.Basic

/-!
# Named terms

Well-known combinators and encodings of data as functions. `lookup` finds them
by name; a name of digits is a Church numeral.
-/

namespace NamedLambda

namespace Term

def iterate (f x : Name) : Nat → Term
  | 0 => var x
  | n + 1 => app (var f) (iterate f x n)

/-- `λf. λx. f (f … (f x))` -/
def church (n : Nat) : Term := lambda ["f", "x"] (iterate "f" "x" n)

end Term

namespace Vocabulary

open Term

def identity : Term := abs "x" (var "x")

def k : Term := lambda ["x", "y"] (var "x")

/-- `λx. λy. λz. x z (y z)` -/
def s : Term :=
  lambda ["x", "y", "z"] (app (app (var "x") (var "z")) (app (var "y") (var "z")))

def b : Term := lambda ["f", "g", "x"] (app (var "f") (app (var "g") (var "x")))

def c : Term := lambda ["f", "x", "y"] ((var "f").apply [var "y", var "x"])

def w : Term := lambda ["f", "x"] ((var "f").apply [var "x", var "x"])

def selfApply : Term := abs "x" (app (var "x") (var "x"))

/-- `(λx. x x) (λx. x x)`, the smallest term without a normal form -/
def omega : Term := app selfApply selfApply

/-- `λf. (λx. f (x x)) (λx. f (x x))` -/
def y : Term :=
  let half := abs "x" (app (var "f") (app (var "x") (var "x")))
  abs "f" (app half half)

def boolTrue : Term := lambda ["t", "f"] (var "t")

def boolFalse : Term := lambda ["t", "f"] (var "f")

/-- `λp. p false true` -/
def boolNot : Term := abs "p" ((var "p").apply [boolFalse, boolTrue])

/-- `λp. λq. p q p` -/
def boolAnd : Term := lambda ["p", "q"] ((var "p").apply [var "q", var "p"])

/-- `λn. λf. λx. f (n f x)` -/
def succ : Term :=
  lambda ["n", "f", "x"] (app (var "f") ((var "n").apply [var "f", var "x"]))

/-- `λm. λn. λf. λx. m f (n f x)` -/
def plus : Term :=
  lambda ["m", "n", "f", "x"]
    ((var "m").apply [var "f", (var "n").apply [var "f", var "x"]])

/-- `λm. λn. λf. m (n f)` -/
def mult : Term := lambda ["m", "n", "f"] (app (var "m") (app (var "n") (var "f")))

/-- `λn. λf. λx. n (λg. λh. h (g f)) (λu. x) (λu. u)` -/
def pred : Term :=
  let step := lambda ["g", "h"] (app (var "h") (app (var "g") (var "f")))
  lambda ["n", "f", "x"]
    ((var "n").apply [step, abs "u" (var "x"), abs "u" (var "u")])

def entries : List (Name × Term) :=
  [("I", identity), ("K", k), ("S", s), ("B", b), ("C", c), ("W", w), ("omega", selfApply),
    ("Omega", omega), ("Y", y), ("true", boolTrue), ("false", boolFalse), ("not", boolNot), ("and", boolAnd),
    ("succ", succ), ("plus", plus), ("mult", mult), ("pred", pred)]

def maxNumeral : Nat := 1000

/-- A name of digits only, and at least one. -/
def isNumeral (name : Name) : Bool := !name.isEmpty && name.toList.all Char.isDigit

/-- The value of a row of digits; zeros may lead. -/
def numeralValue (name : Name) : Nat := Nat.ofDigitChars 10 name.toList 0

/-- A row of digits is read as a word before it is compared with the bound. -/
def lookup (name : Name) : Option Term :=
  if isNumeral name then
    match Decimal.word? name.toList with
    | some n => if n ≤ maxNumeral then some (church n) else none
    | none => none
  else if name = "id" then some identity
  else entries.lookup name

theorem lookup_of_isNumeral {name : Name} (h : isNumeral name = true) :
    lookup name =
      if numeralValue name ≤ maxNumeral then some (church (numeralValue name)) else none := by
  have hword : maxNumeral < UInt64.size := by decide
  rw [lookup, if_pos h, Decimal.word?_eq]
  by_cases hroom : Nat.ofDigitChars 10 name.toList 0 < UInt64.size
  · rw [if_pos hroom]
    rfl
  · have hlarge : ¬ numeralValue name ≤ maxNumeral := by
      unfold numeralValue
      omega
    rw [if_neg hroom, if_neg hlarge]

end Vocabulary

end NamedLambda
