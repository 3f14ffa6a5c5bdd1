import NamedLambda.Proofs.EtaNormalForms

/-!
# The end of a run, and going on from it

What a terminated run answers with is normal, also for eta if it was eta-reduced, so that
another run makes nothing else of it (`Settings.reduce_stable`). A run that reached its
bound can be taken up again. The second one starts with a new supply of names, so the two
together differ from one run up to both bounds, but only in bound names
(`Settings.reduce_resume`).
-/

namespace NamedLambda

theorem Term.IsNormal.etaReduce {t : Term} (h : t.IsNormal) : t.etaReduce.IsNormal :=
  isNormal_of_nameless (h.nameless.etaSteps (etaSteps_etaReduce t).nameless)

namespace Reduction

theorem Contractions.append {strategy : Strategy} {t middle last : Term}
    {names names' rest : NameSupply} {steps steps' : List Step}
    (h : Contractions strategy t names steps middle names')
    (h' : Contractions strategy middle names' steps' last rest) :
    Contractions strategy t names (steps ++ steps') last rest := by
  induction h with
  | refl => exact h'
  | head hc _ ih => exact .head hc (ih h')

/-- The report on both runs, where the second one started from the answer of the first. -/
def followedBy (first second : Reduction) : Reduction where
  term := second.term
  steps := first.steps + second.steps
  terminated := second.terminated
  trace := first.trace ++ second.trace

namespace Iteration

variable {strategy : Strategy} {m n : Nat} {t : Term} {names : NameSupply}

/-- What the first bound left to do is done within the second one. -/
def append (i : Iteration strategy m t names) (j : Iteration strategy n i.last i.rest) :
    Iteration strategy (m + n) t names where
  steps := i.steps ++ j.steps
  last := j.last
  rest := j.rest
  made := i.made.append j.made
  length_le := by
    rw [List.length_append]
    exact Nat.add_le_add i.length_le j.length_le
  stopped := by
    have hi := i.stopped
    have hj := j.stopped
    rw [Term.contract_eq_none_iff] at hi hj ⊢
    rcases hj with hj | hj
    · exact .inl hj
    · rcases hi with hi | hi
      · exact .inl (by rwa [(j.made.eq_self_of_isNormal hi).2])
      · exact .inr (by rw [List.length_append, hi, hj])

theorem report_append (settings : Settings) (i : Iteration strategy m t names)
    (j : Iteration strategy n i.last i.rest) :
    (i.append j).report settings = (i.report settings).followedBy (j.report settings) := by
  simp only [report, append, followedBy, List.length_append]
  cases settings.trace <;> rfl

end Iteration

namespace Alike

theorem refl (r : Reduction) : Alike r r where
  term := Term.equivalence_alphaEquiv.refl r.term
  steps := rfl
  terminated := rfl
  trace := List.forall₂_same.2 fun step _ => ⟨rfl, Term.equivalence_alphaEquiv.refl step.term⟩

theorem followedBy {r r' s s' : Reduction} (h : Alike r r') (h' : Alike s s') :
    Alike (r.followedBy s) (r'.followedBy s') where
  term := h'.term
  steps := congrArg₂ (· + ·) h.steps h'.steps
  terminated := h'.terminated
  trace := List.rel_append h.trace h'.trace

theorem etaReduce {r r' : Reduction} (h : Alike r r') (eta : Bool) :
    Alike (if r.terminated && eta then { r with term := r.term.etaReduce } else r)
      (if r'.terminated && eta then { r' with term := r'.term.etaReduce } else r') := by
  simp only [h.terminated]
  split
  · have hterm := (Term.alphaRel_nil_iff.2 h.term).etaReduce
    exact ⟨Term.alphaRel_nil_iff.1 hterm, h.steps, rfl, h.trace⟩
  · exact h

end Alike

end Reduction

namespace Settings

open Reduction (Iteration)

theorem alike_report (settings : Settings) {t : Term} {names : NameSupply}
    (i : Iteration settings.strategy settings.maxSteps t names) :
    (i.report settings).Alike (settings.reduce t) := by
  have hrun := Reduction.run_alike settings.strategy settings.trace
    (Term.equivalence_alphaEquiv.refl t) names .new 0 .nil settings.maxSteps
  obtain ⟨j, hj⟩ := Reduction.exists_iteration_run settings.strategy settings.trace t names 0 []
    settings.maxSteps
  obtain rfl := Subsingleton.elim i j
  have hreport : Reduction.Alike _ (settings.reduce t) := hrun.etaReduce settings.eta
  rw [hj] at hreport
  convert hreport using 1
  simp only [Iteration.report]
  split <;> simp

theorem reduce_term_of_terminated {settings settings' : Settings} {t : Term}
    (heta : settings'.eta = settings.eta) (h : (settings.reduce t).terminated = true) :
    settings'.reduce (settings.reduce t).term = ⟨(settings.reduce t).term, 0, true, []⟩ := by
  obtain ⟨n, -, hn, hterm⟩ := exists_isNormal_of_terminated h
  rw [hterm]
  cases he : settings.eta with
  | false => simp [reduce_of_isNormal settings' hn, heta, he]
  | true =>
    have hstable : n.etaReduce.etaReduce = n.etaReduce :=
      (Term.isEtaNormal_etaReduce n).etaReduce_eq
    simp [reduce_of_isNormal settings' hn.etaReduce, heta, he, hstable]

/-- Two runs one after the other are one run up to both bounds, whatever the settings, but
for bound names: the second run has a supply of its own and takes other fresh names. -/
theorem reduce_resume (settings : Settings) (t : Term) (m n : Nat) :
    let first := { settings with maxSteps := m }.reduce t
    ({ settings with maxSteps := m + n }.reduce t).Alike
      (first.followedBy ({ settings with maxSteps := n }.reduce first.term)) := by
  intro first
  obtain ⟨i, hi⟩ : ∃ i : Iteration settings.strategy m t .new, first = i.report settings :=
    { settings with maxSteps := m }.exists_iteration_reduce t
  obtain ⟨k, hk⟩ : ∃ k : Iteration settings.strategy (m + n) t .new,
      { settings with maxSteps := m + n }.reduce t = k.report settings :=
    { settings with maxSteps := m + n }.exists_iteration_reduce t
  obtain ⟨j, -⟩ := Reduction.exists_iteration_run settings.strategy false i.last i.rest 0 [] n
  obtain rfl : k = i.append j := Subsingleton.elim _ _
  rw [hk, Iteration.report_append, ← hi]
  suffices (j.report settings).Alike ({ settings with maxSteps := n }.reduce first.term) from
    (Reduction.Alike.refl first).followedBy this
  cases hfound : settings.strategy.findRedex i.last with
  | none =>
    have hterminated : first.terminated = true := by
      rw [hi]
      exact Option.isNone_iff_eq_none.2 hfound
    have hsecond : { settings with maxSteps := n }.reduce first.term =
        ⟨first.term, 0, true, []⟩ := reduce_term_of_terminated rfl hterminated
    rw [j.report_of_isNormal settings (Strategy.findRedex_eq_none_iff.1 hfound), hsecond, hi]
    simp [Iteration.report, hfound, Reduction.Alike.refl]
  | some path =>
    have hterm : first.term = i.last := by simp [hi, Iteration.report, hfound]
    rw [hterm]
    exact { settings with maxSteps := n }.alike_report j

/-- A terminated reduction answers with a normal form: no strategy finds a redex in it, and
after eta reduction, which makes none, no eta redex is left either. So to reduce the answer
once more takes no step and gives the same tree, whatever the strategy and the bound. -/
theorem reduce_stable {settings : Settings} {t : Term}
    (h : (settings.reduce t).terminated = true) :
    (settings.reduce t).term.IsNormal ∧
      (∀ strategy : Strategy, strategy.findRedex (settings.reduce t).term = none) ∧
      (settings.eta = true → (settings.reduce t).term.IsEtaNormal) ∧
      (∀ n : Term, n.IsNormal → n.etaReduce.IsNormal) ∧
      ∀ settings' : Settings, settings'.eta = settings.eta →
        settings'.reduce (settings.reduce t).term = ⟨(settings.reduce t).term, 0, true, []⟩ := by
  obtain ⟨n, -, hn, hterm⟩ := exists_isNormal_of_terminated h
  have hnormal : (settings.reduce t).term.IsNormal := by
    rw [hterm]
    split
    · exact hn.etaReduce
    · exact hn
  refine ⟨hnormal, fun strategy => Strategy.findRedex_eq_none_iff.2 hnormal, ?_,
    fun _ => Term.IsNormal.etaReduce, fun _ heta => reduce_term_of_terminated heta h⟩
  intro heta
  rw [hterm, if_pos heta]
  exact Term.isEtaNormal_etaReduce n

end Settings

def Term.idOfWrapped : Term :=
  .app (.var "g") (.app (.abs "z" (.var "z"))
    (.abs "x" (.abs "y" (.app (.app (.var "f") (.var "x")) (.var "y")))))

/-- One step and two eta contractions lead to `g f`, and there it ends. -/
theorem Settings.reduce_stable_idOfWrapped :
    (({ eta := true } : Settings).reduce Term.idOfWrapped).term = .app (.var "g") (.var "f") ∧
      (({ eta := true } : Settings).reduce Term.idOfWrapped).steps = 1 ∧
      (Term.app (.var "g") (.var "f")).IsNormal ∧
      (Term.app (.var "g") (.var "f")).IsEtaNormal ∧
      ({ eta := true, strategy := .applicative, maxSteps := 0 } : Settings).reduce
        (.app (.var "g") (.var "f")) = ⟨.app (.var "g") (.var "f"), 0, true, []⟩ := by
  have hterm : (({ eta := true } : Settings).reduce Term.idOfWrapped).term =
      .app (.var "g") (.var "f") := by cbv
  obtain ⟨hnormal, -, heta, -, hagain⟩ := @reduce_stable { eta := true } Term.idOfWrapped (by cbv)
  rw [hterm] at hnormal heta hagain
  exact ⟨hterm, by cbv, hnormal, heta rfl, hagain _ rfl⟩

/-- A bounded run can be resumed from where it stopped. -/
theorem Term.normalize_resume (t : Term) (m n : Nat) (strategy : Strategy) :
    let first := t.normalize m strategy
    let second := first.term.normalize n strategy
    let whole := t.normalize (m + n) strategy
    whole.steps = first.steps + second.steps ∧ whole.terminated = second.terminated ∧
      whole.term.alphaEquiv second.term = true := by
  have hrun := ({ strategy } : Settings).reduce_resume t m n
  exact ⟨hrun.steps, hrun.terminated, hrun.term⟩

/-- For `g ((λx. λy. x y) y) ((λx. λy. x y) y)` one run takes two fresh names, and two runs
take the same one twice. -/
example :
    let t := Term.app (.abs "x" (.abs "y" (.app (.var "x") (.var "y")))) (.var "y")
    let whole := (Term.app (.app (.var "g") t) t).normalize 2 .normalOrder
    let first := (Term.app (.app (.var "g") t) t).normalize 1 .normalOrder
    let second := first.term.normalize 1 .normalOrder
    whole.term = .app (.app (.var "g") (.abs "y1" (.app (.var "y") (.var "y1"))))
        (.abs "y2" (.app (.var "y") (.var "y2"))) ∧
      second.term = .app (.app (.var "g") (.abs "y1" (.app (.var "y") (.var "y1"))))
        (.abs "y1" (.app (.var "y") (.var "y1"))) := by cbv

end NamedLambda
