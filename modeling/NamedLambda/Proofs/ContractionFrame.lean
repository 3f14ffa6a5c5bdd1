import Mathlib
import NamedLambda.Term.Conversion

/-!
# What a contraction leaves as it is

The search for a redex and the contraction go to one and the same place: what is there
becomes an instance of the body of the redex (`Term.exists_replacedAt_of_contract`). Above
that place the nodes stay what they are, and beside it whole subterms
(`Term.contract_frame`).
-/

namespace NamedLambda.Term

def binder? : Term → Option Name
  | abs p _ => some p
  | _ => none

namespace ReplacedAt

variable {old new t u : Term} {path : Path}

theorem symm (h : ReplacedAt old new path t u) : ReplacedAt new old path u t := by
  induction h with
  | here => exact .here
  | body p _ ih => exact .body p ih
  | func arg _ ih => exact .func arg ih
  | arg func _ ih => exact .arg func ih

theorem subterm?_left (h : ReplacedAt old new path t u) : t.subterm? path = some old := by
  induction h with
  | here => exact subterm?_nil old
  | body _ _ ih => exact ih
  | func _ _ ih => exact ih
  | arg _ _ ih => exact ih

theorem subterm?_right (h : ReplacedAt old new path t u) : u.subterm? path = some new :=
  h.symm.subterm?_left

theorem exists_subterm? {rest : Path} (q : Path) (h : ReplacedAt old new (q ++ rest) t u) :
    ∃ s s', t.subterm? q = some s ∧ u.subterm? q = some s' ∧ ReplacedAt old new rest s s' := by
  induction q generalizing t u with
  | nil => exact ⟨t, u, subterm?_nil t, subterm?_nil u, h⟩
  | cons d q ih =>
    cases h with
    | body p h => exact ih h
    | func arg h => exact ih h
    | arg func h => exact ih h

theorem same_node (h : ReplacedAt old new path t u) (hpath : path ≠ []) :
    u.kind = t.kind ∧ u.binder? = t.binder? := by
  cases h with
  | here => exact absurd rfl hpath
  | body p h => exact ⟨rfl, rfl⟩
  | func arg h => exact ⟨rfl, rfl⟩
  | arg func h => exact ⟨rfl, rfl⟩

/-- Where the way to another position parts from the way to this one, the terms agree. -/
theorem subterm?_eq (h : ReplacedAt old new path t u) {q : Path} (hq : ¬ q <+: path)
    (hpath : ¬ path <+: q) : u.subterm? q = t.subterm? q := by
  induction h generalizing q with
  | here => exact absurd List.nil_prefix hpath
  | body p _ ih =>
    rcases q with _ | ⟨_ | d, q⟩
    · exact absurd List.nil_prefix hq
    · exact ih (by simpa using hq) (by simpa using hpath)
    · simp [subterm?]
  | func arg _ ih =>
    rcases q with _ | ⟨_ | _ | d, q⟩
    · exact absurd List.nil_prefix hq
    · exact ih (by simpa using hq) (by simpa using hpath)
    · simp [subterm?]
    · simp [subterm?]
  | arg func _ ih =>
    rcases q with _ | ⟨_ | _ | d, q⟩
    · exact absurd List.nil_prefix hq
    · simp [subterm?]
    · exact ih (by simpa using hq) (by simpa using hpath)
    · simp [subterm?]

end ReplacedAt

variable {t : Term} {strategy : Strategy} {names : NameSupply} {c : Contraction}

theorem exists_replacedAt_of_contract (h : t.contract strategy names = some c) :
    ∃ p body arg,
      ReplacedAt (app (abs p body) arg) (body.substitute p arg names).1 c.path t c.term ∧
        c.names = (body.substitute p arg names).2 := by
  obtain ⟨hfound, hmade⟩ := contract_eq_some_iff.1 h
  obtain ⟨redex, hredex, hr⟩ := Strategy.isRedex_of_findRedex hfound
  obtain ⟨p, body, arg, rfl⟩ := isRedex_iff.1 hr
  have hreplaced := replacedAt_contractAt names hredex
  rw [hmade] at hreplaced
  exact ⟨p, body, arg, hreplaced⟩

/-- A contraction changes nothing but its redex. At the position that it reports, the
redex `(λp. body) arg` becomes what substitution makes of it with the supply at hand. On the
way there each node keeps its kind and the name it binds, and away from it each subterm
stays the same tree. -/
theorem contract_frame (h : t.contract strategy names = some c) :
    (∃ p body arg, t.subterm? c.path = some (app (abs p body) arg) ∧
      c.term.subterm? c.path = some (body.substitute p arg names).1 ∧
      c.names = (body.substitute p arg names).2) ∧
    (∀ q, q <+: c.path → q ≠ c.path → ∃ s s', t.subterm? q = some s ∧
      c.term.subterm? q = some s' ∧ s'.kind = s.kind ∧ s'.binder? = s.binder?) ∧
    ∀ q, ¬ q <+: c.path → ¬ c.path <+: q → c.term.subterm? q = t.subterm? q := by
  obtain ⟨p, body, arg, hreplaced, hnames⟩ := exists_replacedAt_of_contract h
  refine ⟨⟨p, body, arg, hreplaced.subterm?_left, hreplaced.subterm?_right, hnames⟩, ?_, ?_⟩
  · rintro q ⟨rest, hrest⟩ hne
    rw [← hrest] at hreplaced
    obtain ⟨s, s', hs, hs', hbelow⟩ := hreplaced.exists_subterm? q
    have hbelow_ne : rest ≠ [] := by
      rintro rfl
      exact hne (by simpa using hrest)
    exact ⟨s, s', hs, hs', hbelow.same_node hbelow_ne⟩
  · exact fun q => hreplaced.subterm?_eq

/-- The term `λy. (λx. λy. x y) y f`, where the inner binder must give way. -/
def redexUnderBinder : Term :=
  abs "y" (app (app (abs "x" (abs "y" (app (var "x") (var "y")))) (var "y")) (var "f"))

/-- It becomes `λy. (λy1. y y1) f`: the outer binder and the argument `f` are as they were. -/
theorem contract_frame_redexUnderBinder :
    ∃ c, redexUnderBinder.contract .applicative .new = some c ∧ c.path = [0, 0] ∧
      c.term.subterm? [0, 0] = some (abs "y1" (app (var "y") (var "y1"))) ∧
      (∃ s s', redexUnderBinder.subterm? [] = some s ∧ c.term.subterm? [] = some s' ∧
        s'.kind = s.kind ∧ s'.binder? = s.binder?) ∧
      c.term.subterm? [0, 1] = redexUnderBinder.subterm? [0, 1] := by
  obtain ⟨c, hc, hpath, hinstance⟩ : ∃ c,
      redexUnderBinder.contract .applicative .new = some c ∧ c.path = [0, 0] ∧
        c.term.subterm? [0, 0] = some (abs "y1" (app (var "y") (var "y1"))) :=
    ⟨_, by cbv, by cbv, by cbv⟩
  obtain ⟨-, above, beside⟩ := contract_frame hc
  rw [hpath] at above beside
  exact ⟨c, hc, hpath, hinstance, above [] List.nil_prefix (by decide),
    beside [0, 1] (by decide) (by decide)⟩

end NamedLambda.Term
