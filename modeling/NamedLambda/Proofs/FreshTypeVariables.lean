import NamedLambda.Proofs.InferenceSoundness

/-!
# Fresh type variables

Inference that also keeps the list of the variables it issues (`Issuing`). It does
what inference does (`Tracks`), and the variables follow one another from the counter
on. So below the last number they are distinct, and none of them is free in the
given context. The last number has no successor: once the counter is there, it is
issued again and again, be it free in the context or not.
-/

namespace NamedLambda

namespace TyVar

theorem min_last_le_of_mem_iterate {a v : TyVar} {k : ℕ} (h : v ∈ List.iterate next a k) :
    min a last ≤ v := by
  induction k generalizing a with
  | zero => cases h
  | succ k ih =>
    rcases List.mem_cons.1 h with rfl | h
    · exact Nat.min_le_left ..
    · have hv := ih h
      simp only [next] at hv
      grind

theorem nodup_filter_iterate (a : TyVar) (k : ℕ) :
    ((List.iterate next a k).filter (· < last)).Nodup := by
  induction k generalizing a with
  | zero => exact List.nodup_nil
  | succ k ih =>
    rw [List.iterate]
    by_cases ha : a < last
    · rw [List.filter_cons_of_pos (by simpa using ha)]
      refine List.nodup_cons.2 ⟨fun hmem => ?_, ih a.next⟩
      have hle := min_last_le_of_mem_iterate (List.mem_of_mem_filter hmem)
      simp only [next] at hle
      grind
    · rw [List.filter_cons_of_neg (by simpa using ha)]
      exact ih a.next

theorem min_last_le_iterate (a : TyVar) (k : ℕ) : min a last ≤ next^[k] a := by
  have hmem : next^[k] a ∈ List.iterate next a (k + 1) :=
    List.mem_iterate.2 ⟨k, Nat.lt_succ_self k, rfl⟩
  exact min_last_le_of_mem_iterate hmem

theorem lt_last_of_mem_iterate {a v : TyVar} {k : ℕ} (h : v ∈ List.iterate next a k)
    (room : next^[k] a < last) : v < last := by
  induction k generalizing a with
  | zero => cases h
  | succ k ih =>
    rw [Function.iterate_succ_apply] at room
    rcases List.mem_cons.1 h with rfl | h
    · have hle := min_last_le_iterate v.next k
      simp only [next, last] at hle room ⊢
      grind
    · exact ih h room

end TyVar

namespace Inferencer

/-- A result of inference with the variables that were issued on the way. -/
def withIssued {α : Type} (issued : List TyVar) :
    EStateM.Result TypeError Inferencer α →
      EStateM.Result TypeError (Inferencer × List TyVar) α
  | .ok a st => .ok a (st, issued)
  | .error e st => .error e (st, issued)

theorem withIssued_eq_ok {α : Type} {issued vars : List TyVar} {a : α} {st : Inferencer}
    {res : EStateM.Result TypeError Inferencer α} :
    withIssued issued res = .ok a (st, vars) ↔ res = .ok a st ∧ issued = vars := by
  cases res <;> simp [withIssued, and_assoc]

/-- Inference that keeps the issued variables, the first one first. -/
abbrev Issuing := EStateM TypeError (Inferencer × List TyVar)

namespace Issuing

def silently {α : Type} (m : Infer α) : Issuing α := fun (st, issued) => withIssued issued (m st)

def fresh : Issuing Ty := fun (st, issued) =>
  withIssued (issued ++ [st.next]) (Inferencer.fresh st)

def instantiate (σ : Scheme) : Issuing Ty := do
  let images ← σ.vars.mapM fun v => return (v, ← fresh)
  return σ.ty.apply (.ofList images)

def inferTerm (Γ : Context) : Term → Issuing Inference
  | .var x =>
    match Γ.get? x with
    | none => throw (.unbound x)
    | some σ => do
      let ty ← instantiate σ
      silently (record (.instantiated x ty))
      return ⟨ty, ∅⟩
  | .abs p body => do
    let paramTy ← fresh
    let ⟨bodyTy, s⟩ ← inferTerm (Γ.extend p (.mono paramTy)) body
    return ⟨.arrow (paramTy.apply s) bodyTy, s⟩
  | .app func arg => do
    let ⟨funcTy, s₁⟩ ← inferTerm Γ func
    let ⟨argTy, s₂⟩ ← inferTerm (Γ.apply s₁) arg
    let result ← fresh
    match unify (funcTy.apply s₂) (.arrow argTy result) with
    | .error e => throw (.ofUnify (.app func arg) e)
    | .ok s₃ =>
      silently (record (.unified (.app func arg) s₃))
      return ⟨result.apply s₃, (s₃.compose s₂).compose s₁⟩

def infer (Γ : Context) (t : Term) : Issuing Inference := do
  silently (modify (reserve Γ))
  inferTerm Γ t

def inferLet (Γ : Context) (name : Name) (bound body : Term) : Issuing Inference := do
  silently (modify (reserve Γ))
  let ⟨boundTy, s₁⟩ ← inferTerm Γ bound
  let Γ₁ := Γ.apply s₁
  let ⟨ty, s₂⟩ ← inferTerm (Γ₁.extend name (Γ₁.generalize boundTy)) body
  return ⟨ty, s₂.compose s₁⟩

end Issuing

/-- The first computation does what the second does, and issues the numbers that
the counter passes on the way. -/
def Tracks {α : Type} (m : Issuing α) (n : Infer α) : Prop :=
  ∀ st issued, ∃ k,
    m (st, issued) = withIssued (issued ++ List.iterate TyVar.next st.next k) (n st) ∧
      finalNext n st = TyVar.next^[k] st.next

namespace Tracks

variable {α β : Type}

theorem pure (a : α) : Tracks (pure a) (pure a) := by
  intro st issued
  refine ⟨0, ?_, rfl⟩
  rw [List.iterate, List.append_nil]
  rfl

theorem throw (e : TypeError) : Tracks (throw e : Issuing α) (throw e) := by
  intro st issued
  refine ⟨0, ?_, rfl⟩
  rw [List.iterate, List.append_nil]
  rfl

theorem record (event : Event) : Tracks (Issuing.silently (record event)) (record event) := by
  intro st issued
  refine ⟨0, ?_, rfl⟩
  rw [List.iterate, List.append_nil]
  rfl

theorem fresh : Tracks Issuing.fresh fresh := fun _ _ => ⟨1, rfl, rfl⟩

theorem bind {m : Issuing α} {n : Infer α} {f : α → Issuing β} {g : α → Infer β}
    (hm : Tracks m n) (hf : ∀ a, Tracks (f a) (g a)) : Tracks (m >>= f) (n >>= g) := by
  intro st issued
  obtain ⟨k, hrun, hnext⟩ := hm st issued
  simp only [finalNext, Bind.bind, EStateM.bind] at hrun hnext ⊢
  rw [hrun]
  cases hst : n st with
  | error e st' => exact ⟨k, rfl, by simpa only [hst] using hnext⟩
  | ok a st' =>
    simp only [hst] at hnext
    obtain ⟨l, hrun', hnext'⟩ := hf a st' (issued ++ List.iterate TyVar.next st.next k)
    refine ⟨k + l, ?_, ?_⟩
    · simp only [withIssued]
      rw [hrun', List.append_assoc, hnext, List.iterate_add]
      cases g a st' <;> rfl
    · simp only [finalNext] at hnext'
      rw [hnext', hnext, Nat.add_comm, Function.iterate_add_apply]

theorem imagesOf (vars : List TyVar) :
    Tracks (vars.mapM fun v => return (v, ← Issuing.fresh)) (imagesOf vars) := by
  induction vars with
  | nil => exact .pure []
  | cons v vars ih =>
    rw [Inferencer.imagesOf, List.mapM_cons, List.mapM_cons]
    exact .bind (.bind .fresh fun _ => .pure _) fun _ => .bind ih fun _ => .pure _

theorem instantiate (σ : Scheme) : Tracks (Issuing.instantiate σ) (instantiate σ) :=
  .bind (.imagesOf σ.vars) fun _ => .pure _

theorem inferTerm (Γ : Context) (t : Term) :
    Tracks (Issuing.inferTerm Γ t) (inferTerm Γ t) := by
  induction t generalizing Γ with
  | var x =>
    rw [Issuing.inferTerm, Inferencer.inferTerm]
    cases Γ.get? x with
    | none => exact .throw _
    | some σ => exact .bind (.instantiate σ) fun _ => .bind (.record _) fun _ => .pure _
  | abs p body ih =>
    rw [Issuing.inferTerm, Inferencer.inferTerm]
    exact .bind .fresh fun _ => .bind (ih _) fun _ => .pure _
  | app func arg ihf iha =>
    rw [Issuing.inferTerm, Inferencer.inferTerm]
    refine .bind (ihf Γ) fun r₁ => .bind (iha _) fun r₂ => .bind .fresh fun result => ?_
    cases unify (r₁.ty.apply r₂.subst) (.arrow r₂.ty result) with
    | error e => exact .throw _
    | ok s => exact .bind (.record _) fun _ => .pure _

end Tracks

/-- The variables are distinct, and none of them is free in the context. -/
structure FreshFor (Γ : Context) (issued : List TyVar) : Prop where
  nodup : issued.Nodup
  not_free : ∀ v ∈ issued, v ∉ Γ.freeVars

/-- Above every variable of the context only the last number can be issued twice,
or be free in the context. -/
theorem freshFor_filter_iterate (Γ : Context) (st : Inferencer) (k : ℕ) :
    FreshFor Γ ((List.iterate TyVar.next (st.reserve Γ).next k).filter (· < TyVar.last)) where
  nodup := TyVar.nodup_filter_iterate _ k
  not_free v hv hfree := by
    obtain ⟨hmem, hlast⟩ := List.mem_filter.1 hv
    obtain ⟨x, σ, hx, hσ⟩ := Context.mem_freeVars_iff.1 hfree
    have hle := TyVar.min_last_le_of_mem_iterate hmem
    have habove := Context.next_le_next_reserve st hx (.inl (Scheme.mem_freeVars.1 hσ).1)
    simp only [TyVar.next, decide_eq_true_eq] at habove hlast
    grind

theorem Tracks.exists_issued {α : Type} {m : Issuing α} {n : Infer α} (h : Tracks m n)
    (Γ : Context) (st : Inferencer) :
    ∃ issued, (Issuing.silently (modify (reserve Γ)) >>= fun _ => m) (st, []) =
        withIssued issued ((modify (reserve Γ) >>= fun _ => n) st) ∧
      finalNext (modify (reserve Γ) >>= fun _ => n) st =
        TyVar.next^[issued.length] (st.reserve Γ).next ∧
      FreshFor Γ (issued.filter (· < TyVar.last)) ∧
      (Unsaturated (modify (reserve Γ) >>= fun _ => n) st → FreshFor Γ issued) := by
  obtain ⟨k, hrun, hnext⟩ := h (st.reserve Γ) []
  have hfresh := freshFor_filter_iterate Γ st k
  refine ⟨_, hrun, ?_, hfresh, fun room => ?_⟩
  · rw [List.length_append, List.length_nil, Nat.zero_add, List.length_iterate]
    exact hnext
  have hlast : ∀ v ∈ List.iterate TyVar.next (st.reserve Γ).next k, v < TyVar.last := by
    intro v hv
    exact TyVar.lt_last_of_mem_iterate hv (hnext.symm.trans_lt room)
  rwa [List.filter_eq_self.2 fun v hv => decide_eq_true (hlast v hv)] at hfresh

/-- A run issues a variable whenever it moves the counter. Those below the last number
are fresh, and if the counter does not come to that number, all of them are. -/
theorem issued_fresh (Γ : Context) (st : Inferencer) :
    (∀ t : Term, ∃ issued,
      Issuing.infer Γ t (st, []) = withIssued issued (infer Γ t st) ∧
        finalNext (infer Γ t) st = TyVar.next^[issued.length] (st.reserve Γ).next ∧
        FreshFor Γ (issued.filter (· < TyVar.last)) ∧
        (Unsaturated (infer Γ t) st → FreshFor Γ issued)) ∧
    ∀ (name : Name) (bound body : Term), ∃ issued,
      Issuing.inferLet Γ name bound body (st, []) =
          withIssued issued (inferLet Γ name bound body st) ∧
        finalNext (inferLet Γ name bound body) st =
          TyVar.next^[issued.length] (st.reserve Γ).next ∧
        FreshFor Γ (issued.filter (· < TyVar.last)) ∧
        (Unsaturated (inferLet Γ name bound body) st → FreshFor Γ issued) := by
  constructor
  · intro t
    exact (Tracks.inferTerm Γ t).exists_issued Γ st
  · intro name bound body
    refine Tracks.exists_issued ?_ Γ st
    exact .bind (.inferTerm Γ bound) fun _ => .bind (.inferTerm _ body) fun _ => .pure _

/-- The context has the variables 0 and 1, so `x (id id)` and `let k = id in k x` issue
variables from 2 on. -/
theorem issued_fresh_idAndX :
    (∃ r st, Issuing.infer Context.idAndX
          (.app (.var "x") (.app (.var "id") (.var "id"))) (.new, []) =
        .ok r (st, [2, 3, 4, 5]) ∧ FreshFor Context.idAndX [2, 3, 4, 5]) ∧
      ∃ r st, Issuing.inferLet Context.idAndX "k" (.var "id")
          (.app (.var "k") (.var "x")) (.new, []) =
        .ok r (st, [2, 3, 4]) ∧ FreshFor Context.idAndX [2, 3, 4] := by
  obtain ⟨inTerm, inLet⟩ := issued_fresh Context.idAndX .new
  constructor
  · obtain ⟨issued, hrun, -, -, hfresh⟩ := inTerm (.app (.var "x") (.app (.var "id") (.var "id")))
    have hissued : ∃ r st, Issuing.infer Context.idAndX
        (.app (.var "x") (.app (.var "id") (.var "id"))) (.new, []) =
          .ok r (st, [2, 3, 4, 5]) := ⟨_, _, by cbv⟩
    obtain ⟨r, st, hok⟩ := hissued
    obtain ⟨-, rfl⟩ := withIssued_eq_ok.1 (hrun.symm.trans hok)
    exact ⟨r, st, hok, hfresh (by cbv)⟩
  · obtain ⟨issued, hrun, -, -, hfresh⟩ := inLet "k" (.var "id") (.app (.var "k") (.var "x"))
    have hissued : ∃ r st, Issuing.inferLet Context.idAndX "k" (.var "id")
        (.app (.var "k") (.var "x")) (.new, []) = .ok r (st, [2, 3, 4]) := ⟨_, _, by cbv⟩
    obtain ⟨r, st, hok⟩ := hissued
    obtain ⟨-, rfl⟩ := withIssued_eq_ok.1 (hrun.symm.trans hok)
    exact ⟨r, st, hok, hfresh (by cbv)⟩

def atLast : Context := .ofList [("y", .mono (.var TyVar.last))]

/-- There `λx. y` issues the type of `y` for `x`, and so gets the type `a -> a`.
The term `λx. λz. x` issues it twice. -/
theorem issued_clash :
    (∃ r st, Issuing.infer atLast (.abs "x" (.var "y")) (.new, []) = .ok r (st, [TyVar.last]) ∧
      infer atLast (.abs "x" (.var "y")) .new = .ok r st ∧
      r.principal = .arrow (.var 0) (.var 0) ∧ ¬ FreshFor atLast [TyVar.last]) ∧
    ∃ r st, Issuing.infer atLast (.abs "x" (.abs "z" (.var "x"))) (.new, []) =
        .ok r (st, [TyVar.last, TyVar.last]) ∧
      infer atLast (.abs "x" (.abs "z" (.var "x"))) .new = .ok r st ∧
      ¬ FreshFor atLast [TyVar.last, TyVar.last] := by
  constructor
  · refine ⟨_, _, by cbv, by cbv, by cbv, ?_⟩
    intro h
    exact h.not_free TyVar.last (by decide) (by decide)
  · refine ⟨_, _, by cbv, by cbv, ?_⟩
    intro h
    exact absurd h.nodup (by decide)

end Inferencer

end NamedLambda
