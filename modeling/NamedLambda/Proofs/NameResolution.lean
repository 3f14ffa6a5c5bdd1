import Mathlib
import NamedLambda.CommandLine.Run

/-!
# The term that a row of names stands for

The names are resolved from the left. If all of them stand for terms, the first one is
applied to the others; if not, the first name that stands for nothing says what failed
(`CommandLine.termOfNames_exact`). Whether such a name is a numeral is decided a second time
there, without the vocabulary. The two decisions agree but for the empty name, which is no
numeral and still fails as one (`CommandLine.termOfNames_emptyName`).
-/

namespace NamedLambda

namespace Vocabulary

theorem isNumeral_iff {name : Name} :
    isNumeral name = true ↔ name ≠ "" ∧ name.toList.all Char.isDigit = true := by
  simp [isNumeral]

theorem lookup_eq_some_iff {name : Name} (h : isNumeral name = true) {t : Term} :
    lookup name = some t ↔
      numeralValue name ≤ maxNumeral ∧ t = Term.church (numeralValue name) := by
  rw [lookup_of_isNumeral h]
  by_cases hle : numeralValue name ≤ maxNumeral
  · simp [hle, eq_comm]
  · simp [hle]

theorem lookup_eq_none_iff {name : Name} (h : isNumeral name = true) :
    lookup name = none ↔ maxNumeral < numeralValue name := by
  rw [lookup_of_isNumeral h, ← Nat.not_le]
  by_cases hle : numeralValue name ≤ maxNumeral <;> simp [hle]

end Vocabulary

namespace CommandLine

open Vocabulary

def refusal (name : Name) : Failure :=
  if name = "" ∨ isNumeral name = true ∧ maxNumeral < numeralValue name then .numeral name
  else .unknownTerm name

/-- The first of the names that stands for no term is refused. -/
def FirstRefused (names : List Name) (f : Failure) : Prop :=
  ∃ resolved bad rest, names = resolved ++ bad :: rest ∧
    (∀ x ∈ resolved, (lookup x).isSome = true) ∧ lookup bad = none ∧ f = refusal bad

/-- Among names without a term, the digits are the numerals that are too large, and the empty
name. -/
theorem all_isDigit_iff {name : Name} (h : lookup name = none) :
    name.toList.all Char.isDigit = true ↔
      name = "" ∨ isNumeral name = true ∧ maxNumeral < numeralValue name := by
  constructor
  · intro hdigits
    by_cases hempty : name = ""
    · exact .inl hempty
    · have hnumeral : isNumeral name = true := isNumeral_iff.2 ⟨hempty, hdigits⟩
      exact .inr ⟨hnumeral, (lookup_eq_none_iff hnumeral).1 h⟩
  · rintro (rfl | ⟨hnumeral, _⟩)
    · rfl
    · exact (isNumeral_iff.1 hnumeral).2

theorem termOfName_of_some {name : Name} {t : Term} (h : lookup name = some t) :
    termOfName name = .ok t := by
  simp only [termOfName, h]

theorem termOfName_of_none {name : Name} (h : lookup name = none) :
    termOfName name = .error (refusal name) := by
  simp only [termOfName, h, all_isDigit_iff h, refusal]

theorem firstRefused_cons {x : Name} {names : List Name} {f : Failure} :
    FirstRefused (x :: names) f ↔
      lookup x = none ∧ f = refusal x ∨ (lookup x).isSome = true ∧ FirstRefused names f := by
  constructor
  · rintro ⟨resolved, bad, rest, hnames, hresolved, hbad, hf⟩
    cases resolved with
    | nil =>
      obtain ⟨rfl, -⟩ := List.cons.inj hnames
      exact .inl ⟨hbad, hf⟩
    | cons y resolved =>
      obtain ⟨rfl, hrest⟩ := List.cons.inj hnames
      obtain ⟨hx, hresolved⟩ := List.forall_mem_cons.1 hresolved
      exact .inr ⟨hx, resolved, bad, rest, hrest, hresolved, hbad, hf⟩
  · rintro (⟨hx, hf⟩ | ⟨hx, resolved, bad, rest, rfl, hresolved, hbad, hf⟩)
    · exact ⟨[], x, names, rfl, by simp, hx, hf⟩
    · exact ⟨x :: resolved, bad, rest, rfl, List.forall_mem_cons.2 ⟨hx, hresolved⟩, hbad, hf⟩

theorem not_firstRefused_nil (f : Failure) : ¬ FirstRefused [] f := by
  rintro ⟨resolved, bad, rest, hnames, -⟩
  simp at hnames

theorem mapM_termOfName_eq_ok_iff {names : List Name} {ts : List Term} :
    names.mapM termOfName = .ok ts ↔ List.Forall₂ (fun x t => lookup x = some t) names ts := by
  induction names generalizing ts with
  | nil => cases ts <;> simp [pure, Except.pure]
  | cons x names ih =>
    rw [List.mapM_cons]
    cases hx : lookup x with
    | none =>
      rw [termOfName_of_none hx]
      constructor
      · intro h
        cases h
      · intro h
        cases h with
        | cons hhead _ =>
          rw [hx] at hhead
          cases hhead
    | some t =>
      rw [termOfName_of_some hx]
      cases hrest : names.mapM termOfName with
      | error f => cases ts <;> simp [bind, Except.bind, ← ih, hrest]
      | ok rest => cases ts <;> simp [bind, Except.bind, pure, Except.pure, ← ih, hrest, hx]

theorem mapM_termOfName_eq_error_iff {names : List Name} {f : Failure} :
    names.mapM termOfName = .error f ↔ FirstRefused names f := by
  induction names with
  | nil => simp [pure, Except.pure, not_firstRefused_nil]
  | cons x names ih =>
    rw [List.mapM_cons, firstRefused_cons, ← ih]
    cases hx : lookup x with
    | none =>
      rw [termOfName_of_none hx]
      simp [bind, Except.bind, eq_comm]
    | some t =>
      rw [termOfName_of_some hx]
      cases names.mapM termOfName <;> simp [bind, Except.bind, pure, Except.pure]

theorem termOfNames_eq_ok_iff {head : Name} {args : List Name} {u : Term} :
    termOfNames head args = .ok u ↔
      ∃ t ts, (head :: args).mapM termOfName = .ok (t :: ts) ∧ u = t.apply ts := by
  rw [termOfNames, List.mapM_cons]
  cases termOfName head with
  | error f => simp [bind, Except.bind]
  | ok t =>
    cases args.mapM termOfName with
    | error f => simp [bind, Except.bind]
    | ok ts => simp [bind, Except.bind, pure, Except.pure, eq_comm]

theorem termOfNames_eq_error_iff {head : Name} {args : List Name} {f : Failure} :
    termOfNames head args = .error f ↔ (head :: args).mapM termOfName = .error f := by
  rw [termOfNames, List.mapM_cons]
  cases termOfName head with
  | error g => simp [bind, Except.bind]
  | ok t => cases args.mapM termOfName <;> simp [bind, Except.bind, pure, Except.pure]

/-- A row of names stands for the first name's term applied to those of the others, if every name
stands for a term. Otherwise the first name that does not is refused: as a numeral if it is empty
or a row of digits with a value that is too large, as unknown if not. A row of digits stands for
the numeral of its value, unless that is too large. -/
theorem termOfNames_exact (head : Name) (args : List Name) :
    (∀ u, termOfNames head args = .ok u ↔
      ∃ t ts, lookup head = some t ∧ List.Forall₂ (fun x s => lookup x = some s) args ts ∧
        u = t.apply ts) ∧
    (∀ f, termOfNames head args = .error f ↔
      ∃ resolved bad rest, head :: args = resolved ++ bad :: rest ∧
        (∀ x ∈ resolved, (lookup x).isSome = true) ∧ lookup bad = none ∧
        f = if bad = "" ∨ isNumeral bad = true ∧ maxNumeral < numeralValue bad
          then .numeral bad else .unknownTerm bad) ∧
    ∀ name, isNumeral name = true → ∀ t,
      lookup name = some t ↔
        numeralValue name ≤ maxNumeral ∧ t = Term.church (numeralValue name) := by
  refine ⟨fun u => ?_, fun f => ?_, fun name h t => lookup_eq_some_iff h⟩
  · simp only [termOfNames_eq_ok_iff, mapM_termOfName_eq_ok_iff, List.forall₂_cons, and_assoc]
  · rw [termOfNames_eq_error_iff, mapM_termOfName_eq_error_iff]
    rfl

/-- The empty name is no row of digits and stands for no term, but it fails as a numeral. -/
theorem termOfNames_emptyName :
    isNumeral "" = false ∧ lookup "" = none ∧ termOfNames "" [] = .error (.numeral "") ∧
      (Failure.numeral "").message = "numeral  is larger than 1000" := by
  refine ⟨by decide, by decide, ?_, by decide⟩
  rfl

end CommandLine

end NamedLambda
