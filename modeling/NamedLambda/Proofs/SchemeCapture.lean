import NamedLambda.Proofs.InferenceSoundness

/-!
# Captured type variables

A substitution leaves the quantified variables of a scheme alone and renames
none of them, so what it puts in for a free variable may come under the
quantifier. What is free afterwards is all that was put in, less the variables
that the scheme quantifies (`Scheme.mem_freeVars_apply_iff`). Between the function
and the argument of an application inference applies a substitution to its
context (`Inferencer.Applies`), and there nothing is captured, if the run started
in a clean context (`Inferencer.Applies.noCapture`).
-/

namespace NamedLambda

namespace Scheme

variable {σ : Scheme} {s : TypeSubst} {w : TyVar}

theorem mem_freeVars_apply_iff :
    w ∈ (σ.apply s).freeVars ↔
      w ∉ σ.vars ∧ ∃ v ∈ σ.freeVars, w ∈ ((Ty.var v).apply s).freeVars := by
  constructor
  · intro h
    exact ⟨(mem_freeVars.1 h).2, mem_freeVars_apply h⟩
  · rintro ⟨hw, v, hv, hwv⟩
    obtain ⟨hty, hq⟩ := mem_freeVars.1 hv
    refine mem_freeVars.2 ⟨Ty.mem_freeVars_apply.2 ⟨v, hty, ?_⟩, hw⟩
    rwa [apply_without, if_neg hq]

/-- Free under the substitution is just what is put in for the free variables. -/
def KeepsFree (σ : Scheme) (s : TypeSubst) : Prop :=
  ∀ w, w ∈ (σ.apply s).freeVars ↔ ∃ v ∈ σ.freeVars, w ∈ ((Ty.var v).apply s).freeVars

theorem keepsFree_iff : σ.KeepsFree s ↔ σ.NoCapture s := by
  constructor
  · intro h v hv w hw
    exact (mem_freeVars.1 ((h w).2 ⟨v, hv, hw⟩)).2
  · intro h w
    rw [mem_freeVars_apply_iff]
    constructor
    · exact And.right
    · rintro ⟨v, hv, hw⟩
      exact ⟨h v hv w hw, v, hv, hw⟩

end Scheme

namespace Context

variable {Γ : Context} {s : TypeSubst} {w : TyVar}

theorem mem_freeVars_apply_iff :
    w ∈ (Γ.apply s).freeVars ↔ ∃ σ ∈ Γ.values, w ∉ σ.vars ∧
      ∃ v ∈ σ.freeVars, w ∈ ((Ty.var v).apply s).freeVars := by
  simp only [mem_freeVars_iff, OrderedMap.mem_values, get?_apply, Option.map_eq_some_iff]
  constructor
  · rintro ⟨x, _, ⟨σ, hx, rfl⟩, hw⟩
    exact ⟨σ, ⟨x, hx⟩, Scheme.mem_freeVars_apply_iff.1 hw⟩
  · rintro ⟨σ, ⟨x, hx⟩, hw⟩
    exact ⟨x, _, ⟨σ, hx, rfl⟩, Scheme.mem_freeVars_apply_iff.2 hw⟩

/-- Free under the substitution is just what is put in for the free variables of
the whole context. -/
def KeepsFree (Γ : Context) (s : TypeSubst) : Prop :=
  ∀ w, w ∈ (Γ.apply s).freeVars ↔ ∃ v ∈ Γ.freeVars, w ∈ ((Ty.var v).apply s).freeVars

theorem NoCapture.keepsFree (h : Γ.NoCapture s) : Γ.KeepsFree s := by
  intro w
  constructor
  · exact mem_freeVars_apply
  · rintro ⟨v, hv, hw⟩
    exact mem_freeVars_apply_of_noCapture h hv hw

end Context

namespace Inferencer

/-- Inference of the term in the first context, from the given state on, applies
the substitution to the second context, between the function and the argument of
some application. -/
inductive Applies : Context → Term → Inferencer → Context → TypeSubst → Prop
  | here {Γ : Context} {func arg : Term} {st st₁ : Inferencer} {r : Inference} :
      inferTerm Γ func st = .ok r st₁ → Applies Γ (.app func arg) st Γ r.subst
  | abs {Γ Δ : Context} {p : Name} {body : Term} {st : Inferencer} {s : TypeSubst} :
      Applies (Γ.extend p (.mono (.var st.next))) body { st with next := st.next.next } Δ s →
      Applies Γ (.abs p body) st Δ s
  | func {Γ Δ : Context} {func : Term} (arg : Term) {st : Inferencer} {s : TypeSubst} :
      Applies Γ func st Δ s → Applies Γ (.app func arg) st Δ s
  | arg {Γ Δ : Context} {func arg : Term} {st st₁ : Inferencer} {r : Inference} {s : TypeSubst} :
      inferTerm Γ func st = .ok r st₁ → Applies (Γ.apply r.subst) arg st₁ Δ s →
      Applies Γ (.app func arg) st Δ s

/-- Inference of `let name = bound in body` applies the substitution to the second
context: within one of its terms, or before it generalizes. -/
inductive AppliesLet (Γ : Context) (name : Name) (bound body : Term) (st : Inferencer) :
    Context → TypeSubst → Prop
  | bound {Δ : Context} {s : TypeSubst} : Applies Γ bound st Δ s →
      AppliesLet Γ name bound body st Δ s
  | here {st₁ : Inferencer} {r : Inference} : inferTerm Γ bound st = .ok r st₁ →
      AppliesLet Γ name bound body st Γ r.subst
  | body {Δ : Context} {st₁ : Inferencer} {r : Inference} {s : TypeSubst} :
      inferTerm Γ bound st = .ok r st₁ →
      Applies ((Γ.apply r.subst).extend name ((Γ.apply r.subst).generalize r.ty)) body st₁ Δ s →
      AppliesLet Γ name bound body st Δ s

theorem noCapture_of_run {Γ : Context} {t : Term} {st st₁ : Inferencer} {r : Inference}
    {P : TyVar → Prop} (ready : Γ.Ready st.next P) (h : inferTerm Γ t st = .ok r st₁)
    (room : Unsaturated (inferTerm Γ t) st) :
    Γ.NoCapture r.subst ∧ (Γ.apply r.subst).Ready st₁.next P := by
  have hinfers := Infers.of_run h ((unsaturated_iff_of_ok h).1 room)
  have settled := hinfers.settled ready.below
  exact ⟨ready.noCapture (ready.solved settled.subst), ready.apply settled.subst hinfers.le⟩

theorem Applies.noCapture {Γ Δ : Context} {t : Term} {st : Inferencer} {s : TypeSubst}
    {P : TyVar → Prop} (h : Applies Γ t st Δ s) (ready : Γ.Ready st.next P)
    (room : Unsaturated (inferTerm Γ t) st) : Δ.NoCapture s := by
  induction h with
  | here hfunc => exact (noCapture_of_run ready hfunc room.of_func).1
  | @abs _ _ p _ st _ _ ih =>
    refine ih ?_ room.of_body
    rw [room.next_eq]
    exact ready.extend p
  | func _ _ ih => exact ih ready room.of_func
  | arg hfunc _ ih =>
    exact ih (noCapture_of_run ready hfunc room.of_func).2 (room.of_arg hfunc)

theorem AppliesLet.noCapture {Γ Δ : Context} {name : Name} {bound body : Term} {st : Inferencer}
    {s : TypeSubst} (h : AppliesLet Γ name bound body (st.reserve Γ) Δ s) (clean : Γ.Clean)
    (room : Unsaturated (inferLet Γ name bound body) st) : Δ.NoCapture s := by
  have ready := clean.ready (next_reserve_lt_of_inferLet room)
  cases h with
  | bound h => exact h.noCapture ready room.of_bound
  | here hbound => exact (noCapture_of_run ready hbound room.of_bound).1
  | body hbound h =>
    have hinfers := Infers.of_run hbound ((unsaturated_iff_of_ok hbound).1 room.of_bound)
    have below := (hinfers.settled ready.below).lt_of_mem_freeVars ready.below hinfers.le
    have ready₁ := (noCapture_of_run ready hbound room.of_bound).2
    exact h.noCapture (ready₁.generalize name below) (room.of_letBody hbound)

end Inferencer

/-- What comes under a quantifier is lost, and nothing else; in the runs of
inference from a clean context, nothing is. -/
theorem Context.freeVars_apply_exact :
    (∀ (σ : Scheme) (s : TypeSubst),
      (∀ w, w ∈ (σ.apply s).freeVars ↔
        w ∉ σ.vars ∧ ∃ v ∈ σ.freeVars, w ∈ ((Ty.var v).apply s).freeVars) ∧
      (σ.KeepsFree s ↔ σ.NoCapture s)) ∧
    (∀ (Γ : Context) (s : TypeSubst),
      (∀ w, w ∈ (Γ.apply s).freeVars ↔ ∃ σ ∈ Γ.values, w ∉ σ.vars ∧
        ∃ v ∈ σ.freeVars, w ∈ ((Ty.var v).apply s).freeVars) ∧
      (Γ.NoCapture s → Γ.KeepsFree s)) ∧
    ∀ Γ : Context, Γ.Clean →
      (∀ (t : Term) (st : Inferencer), Inferencer.Unsaturated (Inferencer.infer Γ t) st →
        ∀ Δ s, Inferencer.Applies Γ t (st.reserve Γ) Δ s → Δ.KeepsFree s) ∧
      ∀ (name : Name) (bound body : Term) (st : Inferencer),
        Inferencer.Unsaturated (Inferencer.inferLet Γ name bound body) st →
          ∀ Δ s, Inferencer.AppliesLet Γ name bound body (st.reserve Γ) Δ s → Δ.KeepsFree s := by
  refine ⟨?_, ?_, ?_⟩
  · intro σ s
    exact ⟨fun w => Scheme.mem_freeVars_apply_iff, Scheme.keepsFree_iff⟩
  · intro Γ s
    exact ⟨fun w => mem_freeVars_apply_iff, NoCapture.keepsFree⟩
  · intro Γ clean
    constructor
    · intro t st room Δ s happlies
      have ready := clean.ready (Inferencer.next_reserve_lt_of_infer room)
      exact (happlies.noCapture ready room.of_infer).keepsFree
    · intro name bound body st room Δ s happlies
      exact (happlies.noCapture clean room).keepsFree

/-- In `x id x` the type of `x` becomes a function type, and its variables are free
in the context where the argument is typed. The same in a `let` around `x id`. -/
theorem Context.freeVars_apply_exact_idAndX :
    idAndX.KeepsFree (.singleton 1 (.var 2)) ∧
      (∃ s, Inferencer.Applies idAndX (.app (.app (.var "x") (.var "id")) (.var "x"))
          (.forContext idAndX) idAndX s ∧
        (Ty.var 1).apply s = .arrow (.arrow (.var 2) (.var 2)) (.var 3) ∧ idAndX.KeepsFree s) ∧
      ∃ s, Inferencer.AppliesLet idAndX "k" (.app (.var "x") (.var "id")) (.var "k")
          (.forContext idAndX) idAndX s ∧
        (Ty.var 1).apply s = .arrow (.arrow (.var 2) (.var 2)) (.var 3) ∧ idAndX.KeepsFree s := by
  obtain ⟨-, contexts, runs⟩ := freeVars_apply_exact
  obtain ⟨inTerm, inLet⟩ := runs idAndX clean_idAndX
  have hfunc : ∃ r st₁, Inferencer.inferTerm idAndX (.app (.var "x") (.var "id"))
      (.forContext idAndX) = .ok r st₁ ∧
        (Ty.var 1).apply r.subst = .arrow (.arrow (.var 2) (.var 2)) (.var 3) :=
    ⟨_, _, by cbv, rfl⟩
  obtain ⟨r, st₁, hrun, happly⟩ := hfunc
  refine ⟨?_, ⟨r.subst, .here hrun, happly, ?_⟩, ⟨r.subst, .here hrun, happly, ?_⟩⟩
  · have admits : ∀ v ∈ idAndX.freeVars.elems,
        ∀ w ∈ ((Ty.var v).apply (.singleton 1 (.var 2))).freeVars.elems,
          ∀ σ ∈ idAndX.values, w ∉ σ.vars := by decide +kernel
    exact (contexts idAndX _).2 (Admits.noCapture admits)
  · exact inTerm (.app (.app (.var "x") (.var "id")) (.var "x")) .new (by cbv) idAndX _ (.here hrun)
  · exact inLet "k" (.app (.var "x") (.var "id")) (.var "k") .new (by cbv) idAndX _ (.here hrun)

/-- The scheme of `f` quantifies over the variable that is free in the type of `y`. -/
def Context.sharedVariable : Context :=
  .ofList [("f", ⟨[0], .arrow (.var 0) (.var 1)⟩),
    ("g", .mono (.arrow (.var 1) (.base "Int"))), ("y", .mono (.var 0))]

/-- Put in for the free variable of `forall a. a -> b`, the variable `a` is captured.
In a context that is not clean inference does so, here before it types the argument
of `(λu. λk. k) (g y) f`. -/
theorem Context.freeVars_apply_captured :
    ¬ Scheme.KeepsFree ⟨[0], .arrow (.var 0) (.var 1)⟩ (.singleton 1 (.var 0)) ∧
      ¬ KeepsFree (.ofList [("f", ⟨[0], .arrow (.var 0) (.var 1)⟩)]) (.singleton 1 (.var 0)) ∧
      ∃ s, Inferencer.Applies sharedVariable
          (.app (.app (.abs "u" (.abs "k" (.var "k"))) (.app (.var "g") (.var "y"))) (.var "f"))
          (.forContext sharedVariable) sharedVariable s ∧
        ∃ σ ∈ sharedVariable.values, ¬ σ.KeepsFree s := by
  have captured {s : TypeSubst} (hs : (Ty.var 1).apply s = .var 0) :
      ¬ Scheme.KeepsFree ⟨[0], .arrow (.var 0) (.var 1)⟩ s := by
    intro h
    refine Scheme.keepsFree_iff.1 h 1 (by decide) 0 ?_ (by decide)
    rw [hs]
    decide
  have hfunc : ∃ r st₁, Inferencer.inferTerm sharedVariable
      (.app (.abs "u" (.abs "k" (.var "k"))) (.app (.var "g") (.var "y")))
      (.forContext sharedVariable) = .ok r st₁ ∧ (Ty.var 1).apply r.subst = .var 0 :=
    ⟨_, _, by cbv, rfl⟩
  obtain ⟨r, st₁, hrun, happly⟩ := hfunc
  refine ⟨captured rfl, ?_, r.subst, .here hrun, _, by decide, captured happly⟩
  intro h
  have hfree := (h 0).2 ⟨1, by decide, by decide⟩
  exact absurd hfree (by decide)

end NamedLambda
