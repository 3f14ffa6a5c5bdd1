import NamedLambda.Term.Conversion

/-!
# Runs as iterated contraction

A run makes one contraction after another, until no redex is left or the bound is
reached, and what it answers is read off them (`Reduction.exists_iteration_run`).
They are the same ones whatever is reported of them
(`Reduction.Iteration.subsingleton`), and a higher bound only adds to them
(`Reduction.Iteration.isPrefix`). So a reduction is the repeated contraction of a
term from a new supply of names (`Settings.reduce_iterates`), to a normal form if it
terminates (`Settings.exists_isNormal_of_terminated`).
-/

namespace NamedLambda

namespace Reduction

/-- Contractions made one after another, each with the term before it, and the
term and the supply of names after the last one. -/
inductive Contractions (strategy : Strategy) :
    Term → NameSupply → List Step → Term → NameSupply → Prop
  | refl (t : Term) (names : NameSupply) : Contractions strategy t names [] t names
  | head {t last : Term} {names names' : NameSupply} {c : Term.Contraction} {steps : List Step} :
      t.contract strategy names = some c → Contractions strategy c.term c.names steps last names' →
        Contractions strategy t names (⟨t, c.path⟩ :: steps) last names'

namespace Contractions

variable {strategy : Strategy} {t last last' : Term} {names rest rest' : NameSupply}
  {steps steps' : List Step}

/-- Contractions from one start go the same way as long as both go on. -/
theorem isPrefix (h : Contractions strategy t names steps last rest)
    (h' : Contractions strategy t names steps' last' rest')
    (hend : last'.contract strategy rest' = none ∨ steps.length ≤ steps'.length) :
    steps <+: steps' := by
  induction h generalizing steps' with
  | refl => exact List.nil_prefix
  | head hc _ ih =>
    cases h' with
    | refl =>
      rcases hend with hend | hend
      · rw [hc] at hend
        cases hend
      · simp at hend
    | head hc' h' =>
      rw [hc] at hc'
      obtain rfl := Option.some.inj hc'
      refine List.cons_prefix_cons.2 ⟨rfl, ih h' (hend.imp_right ?_)⟩
      intro hle
      simpa using hle

theorem last_unique (h : Contractions strategy t names steps last rest)
    (h' : Contractions strategy t names steps' last' rest')
    (hlen : steps.length = steps'.length) : last = last' ∧ rest = rest' := by
  induction h generalizing steps' with
  | refl =>
    cases h' with
    | refl => exact ⟨rfl, rfl⟩
    | head => cases hlen
  | head hc _ ih =>
    cases h' with
    | refl => cases hlen
    | head hc' h' =>
      rw [hc] at hc'
      obtain rfl := Option.some.inj hc'
      exact ih h' (Nat.succ.inj hlen)

theorem eq_self_of_isNormal (h : Contractions strategy t names steps last rest)
    (hnormal : t.IsNormal) : steps = [] ∧ last = t := by
  cases h with
  | refl => exact ⟨rfl, rfl⟩
  | head hc _ =>
    rw [Term.contract_eq_none_iff.2 hnormal] at hc
    cases hc

theorem betaReaches (h : Contractions strategy t names steps last rest) : t.BetaReaches last := by
  induction h with
  | refl => exact .refl _
  | head hc _ ih => exact .head (Term.betaStep_of_contract hc) ih

theorem of_mem (h : Contractions strategy t names steps last rest) {step : Step}
    (hstep : step ∈ steps) :
    t.BetaReaches step.term ∧ strategy.findRedex step.term = some step.path := by
  induction h with
  | refl => cases hstep
  | head hc _ ih =>
    rcases List.mem_cons.1 hstep with rfl | hstep
    · exact ⟨.refl _, (Term.contract_eq_some_iff.1 hc).1⟩
    · obtain ⟨hreaches, hfound⟩ := ih hstep
      exact ⟨.head (Term.betaStep_of_contract hc) hreaches, hfound⟩

end Contractions

/-- The contractions of a run that stops where no redex is left, or else at the bound. -/
structure Iteration (strategy : Strategy) (bound : Nat) (t : Term) (names : NameSupply) where
  steps : List Step
  last : Term
  rest : NameSupply
  made : Contractions strategy t names steps last rest
  length_le : steps.length ≤ bound
  stopped : last.contract strategy rest = none ∨ steps.length = bound

namespace Iteration

variable {strategy : Strategy} {m n : Nat} {t : Term} {names : NameSupply}

theorem isPrefix (hle : m ≤ n) (i : Iteration strategy m t names)
    (j : Iteration strategy n t names) : i.steps <+: j.steps := by
  refine i.made.isPrefix j.made (j.stopped.imp_right fun hj => ?_)
  calc i.steps.length
    _ ≤ m := i.length_le
    _ ≤ n := hle
    _ = j.steps.length := hj.symm

theorem last_eq (i : Iteration strategy m t names) (j : Iteration strategy n t names)
    (h : i.steps = j.steps) : i.last = j.last :=
  (i.made.last_unique j.made (congrArg List.length h)).1

theorem steps_eq_of_isNormal (hle : m ≤ n) (i : Iteration strategy m t names)
    (j : Iteration strategy n t names) (h : i.last.IsNormal) : i.steps = j.steps := by
  have hback := j.made.isPrefix i.made (.inl (Term.contract_eq_none_iff.2 h))
  exact (i.isPrefix hle j).eq_of_length_le hback.length_le

/-- There is one way only to make the contractions up to a bound. -/
instance subsingleton : Subsingleton (Iteration strategy n t names) where
  allEq i j := by
    have hsteps : i.steps = j.steps :=
      (i.isPrefix (Nat.le_refl _) j).eq_of_length_le (j.isPrefix (Nat.le_refl _) i).length_le
    obtain ⟨hlast, hrest⟩ := i.made.last_unique j.made (congrArg List.length hsteps)
    cases i
    cases j
    cases hsteps
    cases hlast
    cases hrest
    rfl

/-- The report on the contractions made, as the settings want it. -/
def report (settings : Settings) (i : Iteration strategy n t names) : Reduction where
  term := if (strategy.findRedex i.last).isNone && settings.eta then i.last.etaReduce else i.last
  steps := i.steps.length
  terminated := (strategy.findRedex i.last).isNone
  trace := if settings.trace then i.steps else []

theorem report_of_isNormal (settings : Settings) (i : Iteration strategy n t names)
    (h : t.IsNormal) :
    i.report settings = ⟨if settings.eta then t.etaReduce else t, 0, true, []⟩ := by
  obtain ⟨hsteps, hlast⟩ := i.made.eq_self_of_isNormal h
  simp [report, hsteps, hlast, Strategy.findRedex_eq_none_iff.2 h]

end Iteration

theorem exists_iteration_run (strategy : Strategy) (keepSteps : Bool) (t : Term)
    (names : NameSupply) (steps : Nat) (past : List Step) (budget : Nat) :
    ∃ i : Iteration strategy budget t names, run strategy keepSteps t names steps past budget =
      ⟨i.last, steps + i.steps.length, (strategy.findRedex i.last).isNone,
        past.reverse ++ if keepSteps then i.steps else []⟩ := by
  induction budget generalizing t names steps past with
  | zero =>
    refine ⟨⟨[], t, names, .refl t names, Nat.le_refl 0, .inr rfl⟩, ?_⟩
    simp [run_zero]
  | succ budget ih =>
    cases hc : t.contract strategy names with
    | none =>
      refine ⟨⟨[], t, names, .refl t names, Nat.zero_le _, .inl hc⟩, ?_⟩
      have hnormal : strategy.findRedex t = none :=
        Strategy.findRedex_eq_none_iff.2 (Term.contract_eq_none_iff.1 hc)
      simp [run_succ, hc, hnormal]
    | some c =>
      obtain ⟨i, hi⟩ := ih c.term c.names (steps + 1)
        (if keepSteps then ⟨t, c.path⟩ :: past else past)
      refine ⟨⟨⟨t, c.path⟩ :: i.steps, i.last, i.rest, .head hc i.made,
        Nat.succ_le_succ i.length_le, i.stopped.imp_right (congrArg (· + 1))⟩, ?_⟩
      have hcount : steps + 1 + i.steps.length = steps + (i.steps.length + 1) := by omega
      simp only [run_succ, hc, hi]
      cases keepSteps <;> simp [hcount]

/-- Contractions that end in a normal form are those of every run with the steps
to make them. -/
theorem run_eq_of_contractions {strategy : Strategy} {t last : Term} {names rest : NameSupply}
    {made : List Step} (h : Contractions strategy t names made last rest) (hnormal : last.IsNormal)
    (keepSteps : Bool) (steps : Nat) (past : List Step) {budget : Nat}
    (hle : made.length ≤ budget) :
    run strategy keepSteps t names steps past budget =
      ⟨last, steps + made.length, true, past.reverse ++ if keepSteps then made else []⟩ := by
  obtain ⟨i, hi⟩ := exists_iteration_run strategy keepSteps t names steps past budget
  obtain rfl : i = ⟨made, last, rest, h, hle, .inl (Term.contract_eq_none_iff.2 hnormal)⟩ :=
    Subsingleton.elim _ _
  rw [hi, Strategy.findRedex_eq_none_iff.2 hnormal]
  rfl

theorem betaReaches_run (strategy : Strategy) (keepSteps : Bool) (t : Term) (names : NameSupply)
    (steps : Nat) (past : List Step) (budget : Nat) :
    t.BetaReaches (run strategy keepSteps t names steps past budget).term := by
  obtain ⟨i, hi⟩ := exists_iteration_run strategy keepSteps t names steps past budget
  rw [hi]
  exact i.made.betaReaches

/-- Exactly the runs that end in a normal form count as terminated. -/
theorem terminated_run_iff (strategy : Strategy) (keepSteps : Bool) (t : Term)
    (names : NameSupply) (steps : Nat) (past : List Step) (budget : Nat) :
    (run strategy keepSteps t names steps past budget).terminated = true ↔
      (run strategy keepSteps t names steps past budget).term.IsNormal := by
  obtain ⟨i, hi⟩ := exists_iteration_run strategy keepSteps t names steps past budget
  rw [hi]
  exact Option.isNone_iff_eq_none.trans Strategy.findRedex_eq_none_iff

end Reduction

namespace Settings

open Reduction (Iteration)

theorem exists_iteration_reduce (settings : Settings) (t : Term) :
    ∃ i : Iteration settings.strategy settings.maxSteps t .new,
      settings.reduce t = i.report settings := by
  obtain ⟨i, hi⟩ := Reduction.exists_iteration_run settings.strategy settings.trace t .new 0 []
    settings.maxSteps
  refine ⟨i, ?_⟩
  simp only [reduce, hi, Iteration.report]
  split <;> simp

theorem of_mem_trace {settings : Settings} {t : Term} {step : Reduction.Step}
    (h : step ∈ (settings.reduce t).trace) :
    t.BetaReaches step.term ∧ settings.strategy.findRedex step.term = some step.path := by
  obtain ⟨i, hi⟩ := settings.exists_iteration_reduce t
  rw [hi, Iteration.report] at h
  cases htrace : settings.trace with
  | false => simp [htrace] at h
  | true => exact i.made.of_mem (by simpa [htrace] using h)

/-- A reduction that terminates answers with a normal form of the term, or with what eta
reduction makes of it. -/
theorem exists_isNormal_of_terminated {settings : Settings} {t : Term}
    (h : (settings.reduce t).terminated = true) :
    ∃ n : Term, t.BetaReaches n ∧ n.IsNormal ∧
      (settings.reduce t).term = if settings.eta then n.etaReduce else n := by
  obtain ⟨i, hi⟩ := settings.exists_iteration_reduce t
  rw [hi] at h ⊢
  have hfound : (settings.strategy.findRedex i.last).isNone = true := h
  refine ⟨i.last, i.made.betaReaches,
    Strategy.findRedex_eq_none_iff.1 (Option.isNone_iff_eq_none.1 hfound), ?_⟩
  simp [Iteration.report, hfound]

theorem reduce_of_isNormal (settings : Settings) {t : Term} (h : t.IsNormal) :
    settings.reduce t = ⟨if settings.eta then t.etaReduce else t, 0, true, []⟩ := by
  obtain ⟨i, hi⟩ := settings.exists_iteration_reduce t
  rw [hi, i.report_of_isNormal settings h]

/-- A reduction reports on the contractions that are made one after another,
from a new supply of names, until no redex is left or the bound is reached. Whether
the steps are kept makes no difference to the rest of the report, and a higher
bound none at all after a normal form was reached. -/
theorem reduce_iterates (settings : Settings) (t : Term) :
    (∃ i : Iteration settings.strategy settings.maxSteps t .new,
      (settings.reduce t).steps = i.steps.length ∧
      ((settings.reduce t).terminated = true ↔ i.last.IsNormal) ∧
      (settings.reduce t).term =
        (if (settings.reduce t).terminated && settings.eta then i.last.etaReduce else i.last) ∧
      (settings.reduce t).trace = if settings.trace then i.steps else []) ∧
    (∀ keepSteps : Bool, { settings with trace := keepSteps }.reduce t =
      { settings.reduce t with trace := ({ settings with trace := keepSteps }.reduce t).trace }) ∧
    ∀ m n : Nat, m ≤ n →
      ({ settings with maxSteps := m }.reduce t).trace <+:
        ({ settings with maxSteps := n }.reduce t).trace ∧
      (({ settings with maxSteps := m }.reduce t).terminated = true →
        { settings with maxSteps := n }.reduce t = { settings with maxSteps := m }.reduce t) := by
  refine ⟨?_, ?_, ?_⟩
  · obtain ⟨i, hi⟩ := settings.exists_iteration_reduce t
    refine ⟨i, ?_, ?_, ?_, ?_⟩ <;> rw [hi]
    · rfl
    · exact Option.isNone_iff_eq_none.trans Strategy.findRedex_eq_none_iff
    · rfl
    · rfl
  · intro keepSteps
    obtain ⟨i, hi⟩ := settings.exists_iteration_reduce t
    obtain ⟨j, hj⟩ := { settings with trace := keepSteps }.exists_iteration_reduce t
    obtain rfl := Subsingleton.elim i j
    rw [hi, hj]
    rfl
  · intro m n hle
    obtain ⟨i, hi⟩ := { settings with maxSteps := m }.exists_iteration_reduce t
    obtain ⟨j, hj⟩ := { settings with maxSteps := n }.exists_iteration_reduce t
    rw [hi, hj]
    constructor
    · simp only [Iteration.report]
      split
      · exact i.isPrefix hle j
      · exact List.prefix_rfl
    · intro hterminated
      have hnormal : i.last.IsNormal :=
        Strategy.findRedex_eq_none_iff.1 (Option.isNone_iff_eq_none.1 hterminated)
      have hsteps := i.steps_eq_of_isNormal hle j hnormal
      simp only [Iteration.report, hsteps, i.last_eq j hsteps]

end Settings

end NamedLambda
