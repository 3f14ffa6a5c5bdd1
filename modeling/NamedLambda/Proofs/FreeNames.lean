import NamedLambda.Proofs.EtaNormalForms

/-!
# Free names along a run

Substitution leaves free what was free before, but for the name replaced, and makes free
what is put in, if it is put in anywhere (`Term.freeVars_substitute`). The names that it
takes from the supply are bound where they stand. So a contraction makes no name free, nor
does a run of contractions, and nothing is free in what a run reports that was not free in
the term it began with (`Settings.freeVars_reduce`).
-/

namespace NamedLambda

namespace Term

theorem freeVars_substitute (t : Term) (x : Name) (r : Term) (names : NameSupply) :
    (t.substitute x r names).1.freeVars =
      if x ∈ t.freeVars then t.freeVars.erase x ∪ r.freeVars else t.freeVars.erase x := by
  refine OrderedSet.ext fun y => ?_
  have accounts := (substitutes_substitute t x r names).occursFree_iff (y := y)
  simp only [← mem_freeVars] at accounts
  rw [accounts]
  split
  · next hx => simp [hx, and_comm]
  · next hx => simp [hx, and_comm]

theorem ReplacedAt.freeVars_subset {old new t u : Term} {path : Path}
    (h : ReplacedAt old new path t u) (hnew : new.freeVars ⊆ old.freeVars) :
    u.freeVars ⊆ t.freeVars := by
  induction h with
  | here => exact hnew
  | body p _ ih =>
    intro y hy
    obtain ⟨hbody, hne⟩ := mem_freeVars_abs.1 hy
    exact mem_freeVars_abs.2 ⟨ih y hbody, hne⟩
  | func arg _ ih =>
    intro y hy
    exact mem_freeVars_app.2 ((mem_freeVars_app.1 hy).imp_left (ih y))
  | arg func _ ih =>
    intro y hy
    exact mem_freeVars_app.2 ((mem_freeVars_app.1 hy).imp_right (ih y))

theorem freeVars_substitute_subset (p : Name) (body arg : Term) (names : NameSupply) :
    (body.substitute p arg names).1.freeVars ⊆ (app (abs p body) arg).freeVars := by
  intro y hy
  rw [freeVars_substitute] at hy
  rw [mem_freeVars_app, mem_freeVars_abs]
  split at hy
  · exact (OrderedSet.mem_union.1 hy).imp_left OrderedSet.mem_erase.1
  · exact .inl (OrderedSet.mem_erase.1 hy)

theorem BetaStep.freeVars_subset {t u : Term} (h : t.BetaStep u) : u.freeVars ⊆ t.freeVars := by
  obtain ⟨names, hs, hr⟩ := h
  obtain ⟨p, body, arg, rfl⟩ := isRedex_iff.1 hr
  obtain ⟨hreplaced, -⟩ := replacedAt_contractAt names hs
  exact hreplaced.freeVars_subset (freeVars_substitute_subset p body arg names)

theorem BetaReaches.freeVars_subset {t u : Term} (h : t.BetaReaches u) :
    u.freeVars ⊆ t.freeVars := by
  induction h with
  | refl t => exact OrderedSet.subset_refl _
  | head hstep _ ih => exact OrderedSet.subset_trans ih hstep.freeVars_subset

end Term

namespace Settings

theorem freeVars_reduce_subset (settings : Settings) (t : Term) :
    (settings.reduce t).term.freeVars ⊆ t.freeVars := by
  obtain ⟨i, hi⟩ := settings.exists_iteration_reduce t
  have hlast : i.last.freeVars ⊆ t.freeVars := i.made.betaReaches.freeVars_subset
  rw [hi, Reduction.Iteration.report]
  split
  · rwa [Term.freeVars_etaReduce]
  · exact hlast

/-- An instance has the free names of the term but the one replaced, and those of what is
put in exactly if the name was free. So nothing that a reduction reports, on the way or at
its end, has a free name that the term given to it did not have, and a closed term stays
closed. -/
theorem freeVars_reduce :
    (∀ (b r : Term) (x : Name) (names : NameSupply),
      (b.substitute x r names).1.freeVars =
        if x ∈ b.freeVars then b.freeVars.erase x ∪ r.freeVars else b.freeVars.erase x) ∧
    ∀ (settings : Settings) (t : Term),
      (settings.reduce t).term.freeVars ⊆ t.freeVars ∧
      (∀ step ∈ (settings.reduce t).trace, step.term.freeVars ⊆ t.freeVars) ∧
      (t.freeVars = ∅ → (settings.reduce t).term.freeVars = ∅ ∧
        ∀ step ∈ (settings.reduce t).trace, step.term.freeVars = ∅) := by
  refine ⟨fun b r x names => Term.freeVars_substitute b x r names, fun settings t => ?_⟩
  have along : ∀ step ∈ (settings.reduce t).trace, step.term.freeVars ⊆ t.freeVars :=
    fun step hstep => (of_mem_trace hstep).1.freeVars_subset
  refine ⟨settings.freeVars_reduce_subset t, along, fun closed => ⟨?_, fun step hstep => ?_⟩⟩
  · exact OrderedSet.subset_empty.1 (closed ▸ settings.freeVars_reduce_subset t)
  · exact OrderedSet.subset_empty.1 (closed ▸ along step hstep)

def closedClash : Term :=
  .abs "y" (.app (.app (.abs "x" (.abs "y" (.app (.var "x") (.var "y")))) (.var "y")) (.var "y"))

/-- The step in which its inner binder has taken the name `y1`. -/
def closedClashStep : Reduction.Step :=
  ⟨.abs "y" (.app (.abs "y1" (.app (.var "y") (.var "y1"))) (.var "y")), [0]⟩

/-- The name `y1` is free nowhere on the way to `λy. y y`. -/
theorem freeVars_reduce_closedClash :
    closedClash.freeVars = ∅ ∧
    (({ trace := true } : Settings).reduce closedClash).term =
      .abs "y" (.app (.var "y") (.var "y")) ∧
    (({ trace := true } : Settings).reduce closedClash).term.freeVars = ∅ ∧
    closedClashStep ∈ (({ trace := true } : Settings).reduce closedClash).trace ∧
    closedClashStep.term.freeVars = ∅ := by
  have closed : closedClash.freeVars = ∅ := by decide
  have htrace : (({ trace := true } : Settings).reduce closedClash).trace =
      [⟨closedClash, [0, 0]⟩, closedClashStep] := by cbv
  have hmem : closedClashStep ∈ (({ trace := true } : Settings).reduce closedClash).trace := by
    simp [htrace]
  obtain ⟨-, -, stays⟩ := freeVars_reduce.2 { trace := true } closedClash
  obtain ⟨hterm, along⟩ := stays closed
  exact ⟨closed, by cbv, hterm, hmem, along closedClashStep hmem⟩

end Settings

end NamedLambda
