import NamedLambda.Proofs.InferenceSoundness

/-!
# Settled answers of inference

What a run answers mentions the variables free in the context and those that the counter has
passed, and none that its substitution replaces (`Infers.settled`). So the substitution has done
all it can do: a second time it changes neither the type (`Inference.Settled.apply_ty`) nor itself
(`TypeSubst.Solved.compose_self`). The counter goes up only, in every call, with an answer or with
an error.
-/

namespace NamedLambda

namespace TypeSubst.Solved

variable {s : TypeSubst} {P : TyVar → Prop}

theorem apply_image (h : s.Solved P) {v : TyVar} {ty : Ty} (hv : s.get? v = some ty) :
    ty.apply s = ty :=
  Ty.apply_eq_self fun w hw => (h.range v ty hv w hw).2

theorem compose_self (h : s.Solved P) : s.compose s = s := by
  refine OrderedMap.ext fun v => ?_
  rw [get?_compose]
  cases hv : s.get? v with
  | none => rfl
  | some ty => simp [h.apply_image hv]

end TypeSubst.Solved

theorem Inference.Settled.apply_ty {r : Inference} {P : TyVar → Prop} (h : r.Settled P) :
    r.ty.apply r.subst = r.ty :=
  Ty.apply_eq_self fun v hv => (h.ty v hv).2

/-- What a run leaves whose counter goes from `n` to `m`: an answer in the variables free in the
context and those from `n` up to `m`, to which its substitution has nothing to add. -/
structure Inference.Final (r : Inference) (Γ : Context) (n m : TyVar) : Prop where
  settled : r.Settled (Γ.Reach n m)
  apply_ty : r.ty.apply r.subst = r.ty
  compose_subst : r.subst.compose r.subst = r.subst
  advanced : n ≤ m

theorem Inference.Settled.final {r : Inference} {Γ : Context} {n m : TyVar}
    (h : r.Settled (Γ.Reach n m)) (advanced : n ≤ m) : r.Final Γ n m :=
  ⟨h, h.apply_ty, h.subst.compose_self, advanced⟩

theorem Infers.final {Γ : Context} {t : Term} {n m : TyVar} {r : Inference}
    (h : Infers Γ t n r m) (below : ∀ v ∈ Γ.freeVars, v < n) : r.Final Γ n m :=
  (h.settled below).final h.le

theorem InfersLet.final {Γ : Context} {name : Name} {bound body : Term} {n m : TyVar}
    {r : Inference} (h : InfersLet Γ name bound body n r m) (below : ∀ v ∈ Γ.freeVars, v < n) :
    r.Final Γ n m :=
  (h.settled below).final h.le

namespace Inferencer

theorem next_le_reserve (Γ : Context) (st : Inferencer) : st.next ≤ (st.reserve Γ).next := by
  unfold reserve
  cases Γ.maxVar? with
  | none => exact Nat.le_refl _
  | some v => exact Nat.le_max_left ..

namespace Advances

theorem reserve (Γ : Context) : Advances (modify (reserve Γ) : Infer Unit) := fun st =>
  Nat.le_trans (Nat.min_le_left ..) (next_le_reserve Γ st)

theorem infer (Γ : Context) (t : Term) : Advances (infer Γ t) :=
  bind (reserve Γ) fun _ => inferTerm Γ t

theorem inferLet (Γ : Context) (name : Name) (bound body : Term) :
    Advances (inferLet Γ name bound body) :=
  bind (reserve Γ) fun _ => bind (inferTerm Γ bound) fun _ => bind (inferTerm _ body) fun _ =>
    pure _

theorem le_finalNext {α : Type} {m : Infer α} (h : Advances m) {st : Inferencer}
    (hst : st.next ≤ TyVar.last) : st.next ≤ finalNext m st := by
  have hle := h st
  rwa [Nat.min_eq_left hst] at hle

end Advances

/-- With room in the counter, what inference answers mentions only variables free in the context
and variables that the run has made, and none that its own substitution replaces. The counter is
set no lower at the start, and no call takes it back, with an answer or with an error. -/
theorem infer_final (Γ : Context) :
    (∀ (t : Term) (st st' : Inferencer) (r : Inference),
      infer Γ t st = .ok r st' → st'.next < TyVar.last →
        r.Final Γ (st.reserve Γ).next st'.next) ∧
    (∀ (name : Name) (bound body : Term) (st st' : Inferencer) (r : Inference),
      inferLet Γ name bound body st = .ok r st' → st'.next < TyVar.last →
        r.Final Γ (st.reserve Γ).next st'.next) ∧
    (∀ st : Inferencer, st.next ≤ (st.reserve Γ).next) ∧
    ∀ st : Inferencer, st.next ≤ TyVar.last →
      (∀ t, st.next ≤ finalNext (infer Γ t) st) ∧
      ∀ name bound body, st.next ≤ finalNext (inferLet Γ name bound body) st := by
  refine ⟨fun t st st' r h room => ?_, fun name bound body st st' r h room => ?_,
    next_le_reserve Γ, fun st hst => ⟨fun t => ?_, fun name bound body => ?_⟩⟩
  · have hinfers := Infers.of_infer h room
    have start := Nat.lt_of_le_of_lt hinfers.le room
    exact hinfers.final (Context.below_reserve start).lt_of_mem_freeVars
  · have hinfers := InfersLet.of_inferLet h room
    have start := Nat.lt_of_le_of_lt hinfers.le room
    exact hinfers.final (Context.below_reserve start).lt_of_mem_freeVars
  · exact (Advances.infer Γ t).le_finalNext hst
  · exact (Advances.inferLet Γ name bound body).le_finalNext hst

/-- The terms are `x (id id)` and `let k = \y. x y in id k`. In both the type of `x`, which is free
in the context, is replaced by a function type in the variables of the run. -/
theorem infer_final_idAndX :
    (∃ r st, infer Context.idAndX (.app (.var "x") (.app (.var "id") (.var "id"))) .new =
        .ok r st ∧
      r.subst.get? 1 = some (.arrow (.arrow (.var 3) (.var 3)) (.var 5)) ∧
      r.Final Context.idAndX 2 6) ∧
    ∃ r st, inferLet Context.idAndX "k" (.abs "y" (.app (.var "x") (.var "y")))
        (.app (.var "id") (.var "k")) .new = .ok r st ∧
      r.subst.get? 1 = some (.arrow (.var 2) (.var 3)) ∧ r.Final Context.idAndX 2 6 := by
  obtain ⟨inTerm, inLet, -, -⟩ := infer_final Context.idAndX
  have room : (6 : TyVar) < TyVar.last := by decide
  constructor
  · have hrun : ∃ s log, infer Context.idAndX
        (.app (.var "x") (.app (.var "id") (.var "id"))) .new = .ok ⟨.var 5, s⟩ ⟨6, log⟩ ∧
          s.get? 1 = some (.arrow (.arrow (.var 3) (.var 3)) (.var 5)) := ⟨_, _, by cbv, by cbv⟩
    obtain ⟨s, log, hrun, hget⟩ := hrun
    exact ⟨_, _, hrun, hget, inTerm _ .new _ _ hrun room⟩
  · have hrun : ∃ s log, inferLet Context.idAndX "k" (.abs "y" (.app (.var "x") (.var "y")))
        (.app (.var "id") (.var "k")) .new = .ok ⟨.arrow (.var 2) (.var 3), s⟩ ⟨6, log⟩ ∧
          s.get? 1 = some (.arrow (.var 2) (.var 3)) := ⟨_, _, by cbv, by cbv⟩
    obtain ⟨s, log, hrun, hget⟩ := hrun
    exact ⟨_, _, hrun, hget, inLet _ _ _ .new _ _ hrun room⟩

end Inferencer

end NamedLambda
