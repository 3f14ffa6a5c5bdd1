import NamedLambda.Proofs.InferenceRun

/-!
# The variables of a run of inference

The counter separates the variables that a run makes from those it is given. So
the answer mentions only variables free in the context and variables made by the
run, and its substitution leaves none of those it replaces (`Infers.settled`).
The quantified variables of a clean context are of neither kind (`Context.Ready`),
which is why inference captures nothing.
-/

namespace NamedLambda

/-- The variables free in the context, and those from the one number up to the
other. -/
def Context.Reach (Γ : Context) (n m : TyVar) (v : TyVar) : Prop :=
  v ∈ Γ.freeVars ∨ n ≤ v ∧ v < m

/-- The answer mentions only these variables, and none that its substitution
replaces. -/
structure Inference.Settled (r : Inference) (P : TyVar → Prop) : Prop where
  subst : r.subst.Solved P
  ty : ∀ v ∈ r.ty.freeVars, P v ∧ r.subst.get? v = none

theorem Inference.Settled.mono {r : Inference} {P Q : TyVar → Prop} (h : r.Settled P)
    (hPQ : ∀ v, P v → Q v) : r.Settled Q :=
  ⟨h.subst.mono hPQ, fun v hv => ⟨hPQ v (h.ty v hv).1, (h.ty v hv).2⟩⟩

theorem Scheme.mem_freeVars_freshImages {σ : Scheme} {n w : TyVar}
    (h : w ∈ (σ.ty.apply (σ.freshImages n)).freeVars) :
    w ∈ σ.freeVars ∨ n ≤ w ∧ w < n + σ.vars.length := by
  obtain ⟨v, hv, hw⟩ := Ty.mem_freeVars_apply.1 h
  by_cases hq : v ∈ σ.vars
  · obtain ⟨i, hi, hget⟩ := get?_freshImages_of_mem n hq
    rw [TypeSubst.apply_var_of_some hget] at hw
    obtain rfl := Ty.mem_freeVars_var.1 hw
    have hlt : i < σ.vars.length := (List.getElem?_eq_some_iff.1 hi).1
    exact .inr ⟨Nat.le_add_right .., Nat.add_lt_add_left hlt n⟩
  · rw [TypeSubst.apply_var_of_none (get?_freshImages_of_not_mem n hq)] at hw
    obtain rfl := Ty.mem_freeVars_var.1 hw
    exact .inl (mem_freeVars.2 ⟨hv, hq⟩)

theorem Scheme.freeVars_mono {ty : Ty} {v : TyVar} (h : v ∈ (mono ty).freeVars) :
    v ∈ ty.freeVars := (mem_freeVars.1 h).1

namespace Context

theorem reach_extend {Γ : Context} {p : Name} {n m v : TyVar} (hm : n + 1 ≤ m)
    (h : (Γ.extend p (.mono (.var n))).Reach (n + 1) m v) : Γ.Reach n m v := by
  rcases h with h | ⟨hle, hlt⟩
  · rcases mem_freeVars_extend h with h | h
    · exact .inl h
    · obtain rfl := Ty.mem_freeVars_var.1 (Scheme.freeVars_mono h)
      exact .inr ⟨Nat.le_refl _, hm⟩
  · exact .inr ⟨Nat.le_of_succ_le hle, hlt⟩

theorem lt_of_mem_freeVars_extend {Γ : Context} {p : Name} {n : TyVar}
    (below : ∀ v ∈ Γ.freeVars, v < n) :
    ∀ v ∈ (Γ.extend p (.mono (.var n))).freeVars, v < n + 1 := by
  intro v hv
  rcases mem_freeVars_extend hv with h | h
  · exact Nat.lt_succ_of_lt (below v h)
  · obtain rfl := Ty.mem_freeVars_var.1 (Scheme.freeVars_mono h)
    exact Nat.lt_succ_self v

/-- Applying what a run answers stays within the reach of the run, and leaves
nothing that was replaced. -/
theorem mem_freeVars_apply_solved {Γ : Context} {s : TypeSubst} {n m v : TyVar}
    (hs : s.Solved (Γ.Reach n m)) (h : v ∈ (Γ.apply s).freeVars) :
    Γ.Reach n m v ∧ s.get? v = none := by
  obtain ⟨u, hu, hv⟩ := mem_freeVars_apply h
  refine ⟨?_, hs.not_replaced hv⟩
  rcases hs.mem_freeVars_apply_var hv with rfl | h
  · exact .inl hu
  · exact h

theorem Reach.lt {Γ : Context} {n m v : TyVar} (h : Γ.Reach n m v)
    (below : ∀ v ∈ Γ.freeVars, v < n) (hnm : n ≤ m) : v < m :=
  h.elim (fun hv => Nat.lt_of_lt_of_le (below v hv) hnm) (·.2)

theorem lt_of_mem_freeVars_apply {Γ : Context} {s : TypeSubst} {n m : TyVar}
    (hs : s.Solved (Γ.Reach n m)) (below : ∀ v ∈ Γ.freeVars, v < n) (hnm : n ≤ m) :
    ∀ v ∈ (Γ.apply s).freeVars, v < m :=
  fun _ hv => (mem_freeVars_apply_solved hs hv).1.lt below hnm

theorem Reach.mono {Γ : Context} {n m k v : TyVar} (h : Γ.Reach n m v) (hk : m ≤ k) :
    Γ.Reach n k v := h.imp_right fun ⟨hle, hlt⟩ => ⟨hle, Nat.lt_of_lt_of_le hlt hk⟩

/-- A second run, in the context that the first one leaves, does not bring back
what the first has replaced. -/
theorem reach_apply {Γ : Context} {s : TypeSubst} {n n₁ m v : TyVar}
    (hs : s.Solved (Γ.Reach n n₁)) (below : ∀ v ∈ Γ.freeVars, v < n) (hn : n ≤ n₁)
    (hm : n₁ ≤ m) (h : (Γ.apply s).Reach n₁ m v) : Γ.Reach n m v ∧ s.get? v = none := by
  rcases h with h | ⟨hle, hlt⟩
  · obtain ⟨hv, hget⟩ := mem_freeVars_apply_solved hs h
    exact ⟨hv.mono hm, hget⟩
  · refine ⟨.inr ⟨Nat.le_trans hn hle, hlt⟩, ?_⟩
    cases hget : s.get? v with
    | none => rfl
    | some ty => exact absurd ((hs.domain v ty hget).lt below hn) (Nat.not_lt.2 hle)

end Context

namespace Inference.Settled

variable {r : Inference} {Γ : Context} {n m : TyVar}

theorem lt_of_mem_freeVars (h : r.Settled (Γ.Reach n m)) (below : ∀ v ∈ Γ.freeVars, v < n)
    (hnm : n ≤ m) : ∀ v ∈ r.ty.freeVars, v < m :=
  fun v hv => (h.ty v hv).1.lt below hnm

theorem lt_of_mem_freeVars_apply (h : r.Settled (Γ.Reach n m)) (below : ∀ v ∈ Γ.freeVars, v < n)
    (hnm : n ≤ m) {ty : Ty} (hty : ∀ v ∈ ty.freeVars, v < n) :
    ∀ v ∈ (ty.apply r.subst).freeVars, v < m := by
  intro v hv
  rcases h.subst.mem_freeVars_apply hv with hv | hv
  · exact Nat.lt_of_lt_of_le (hty v hv) hnm
  · exact hv.lt below hnm

end Inference.Settled

theorem Infers.settled {Γ : Context} {t : Term} {n m : TyVar} {r : Inference}
    (h : Infers Γ t n r m) (below : ∀ v ∈ Γ.freeVars, v < n) : r.Settled (Γ.Reach n m) := by
  induction h with
  | @var Γ x σ n hx =>
    refine ⟨.empty _, fun v hv => ⟨?_, rfl⟩⟩
    exact (Scheme.mem_freeVars_freshImages hv).imp_left fun h =>
      Context.mem_freeVars_iff.2 ⟨x, σ, hx, h⟩
  | @abs Γ p body n m r hbody ih =>
    have hle : n + 1 ≤ m := hbody.le
    have hr := (ih (Context.lt_of_mem_freeVars_extend below)).mono fun v =>
      Context.reach_extend (Γ := Γ) (p := p) hle
    refine ⟨hr.subst, fun v hv => ?_⟩
    rcases Ty.mem_freeVars_arrow.1 hv with hv | hv
    · refine ⟨?_, hr.subst.not_replaced hv⟩
      rcases hr.subst.mem_freeVars_apply_var hv with rfl | h
      · exact .inr ⟨Nat.le_refl _, hle⟩
      · exact h
    · exact hr.ty v hv
  | @app Γ func arg n n₁ n₂ r₁ r₂ s hfunc harg hs ihf iha =>
    have hle₁ : n ≤ n₁ := hfunc.le
    have hle₂ : n₁ ≤ n₂ := harg.le
    have hr₁ := ihf below
    have below₁ := Context.lt_of_mem_freeVars_apply hr₁.subst below hle₁
    have hr₂ := iha below₁
    let Q : TyVar → Prop := fun v => Γ.Reach n (n₂ + 1) v ∧ r₁.subst.get? v = none
    have hr₂Q : r₂.Settled Q := hr₂.mono fun v hv =>
      have hv := Context.reach_apply hr₁.subst below hle₁ hle₂ hv
      ⟨hv.1.mono (Nat.le_succ n₂), hv.2⟩
    have wider (v : TyVar) (hv : Γ.Reach n n₁ v) : Γ.Reach n (n₂ + 1) v :=
      hv.mono (Nat.le_succ_of_le hle₂)
    have result : Q n₂ ∧ r₂.subst.get? n₂ = none := by
      have hold : ¬ Γ.Reach n n₁ n₂ := fun h => Nat.not_lt.2 hle₂ (h.lt below hle₁)
      have hnew : ¬ (Γ.apply r₁.subst).Reach n₁ n₂ n₂ := fun h =>
        Nat.lt_irrefl n₂ (h.lt below₁ hle₂)
      exact ⟨⟨.inr ⟨Nat.le_trans hle₁ hle₂, Nat.lt_succ_self n₂⟩, hr₁.subst.get?_eq_none hold⟩,
        hr₂.subst.get?_eq_none hnew⟩
    have sides : ∀ v ∈ Unification.vars (r₁.ty.apply r₂.subst) (.arrow r₂.ty (.var n₂)),
        Q v ∧ r₂.subst.get? v = none := by
      intro v hv
      simp only [Unification.vars, OrderedSet.mem_union, Ty.mem_freeVars_arrow,
        Ty.mem_freeVars_var] at hv
      rcases hv with hv | hv | rfl
      · refine ⟨(hr₂Q.subst.mem_freeVars_apply hv).elim (fun h => ?_) id,
          hr₂.subst.not_replaced hv⟩
        exact ⟨wider v (hr₁.ty v h).1, (hr₁.ty v h).2⟩
      · exact hr₂Q.ty v hv
      · exact result
    have hs := solved_of_unify hs
    have hargs : (s.compose r₂.subst).Solved Q := hr₂Q.subst.compose hs sides
    refine ⟨(hr₁.subst.mono wider).compose hargs fun v hv => hv, fun v hv => ?_⟩
    obtain ⟨⟨hreach, hget₁⟩, hget₂⟩ : Q v ∧ r₂.subst.get? v = none := by
      rcases hs.mem_freeVars_apply_var hv with rfl | h
      · exact result
      · exact sides v h
    exact ⟨hreach, by simp [TypeSubst.get?_compose, hget₁, hget₂, hs.not_replaced hv]⟩

namespace Context

theorem mem_vars_generalize {Γ : Context} {ty : Ty} {v : TyVar} :
    v ∈ (Γ.generalize ty).vars ↔ v ∈ ty.freeVars ∧ v ∉ Γ.freeVars := by
  simp [generalize, ← OrderedSet.mem_def]

theorem mem_freeVars_generalize {Γ : Context} {ty : Ty} {v : TyVar}
    (h : v ∈ (Γ.generalize ty).freeVars) : v ∈ Γ.freeVars := by
  obtain ⟨hty, hq⟩ := Scheme.mem_freeVars.1 h
  exact Decidable.byContradiction fun hv => hq (mem_vars_generalize.2 ⟨hty, hv⟩)

end Context

theorem InfersLet.settled {Γ : Context} {name : Name} {bound body : Term} {n m : TyVar}
    {r : Inference} (h : InfersLet Γ name bound body n r m) (below : ∀ v ∈ Γ.freeVars, v < n) :
    r.Settled (Γ.Reach n m) := by
  obtain @⟨n₁, _, r₁, r₂, hbound, hbody⟩ := h
  have hr₁ := hbound.settled below
  let Γ₁ := Γ.apply r₁.subst
  have below₁ := Context.lt_of_mem_freeVars_apply hr₁.subst below hbound.le
  have hfree (v : TyVar) (hv : v ∈ (Γ₁.extend name (Γ₁.generalize r₁.ty)).freeVars) :
      v ∈ Γ₁.freeVars := (Context.mem_freeVars_extend hv).elim id Context.mem_freeVars_generalize
  have hr₂ := (hbody.settled fun v hv => below₁ v (hfree v hv)).mono fun v hv =>
    Context.reach_apply hr₁.subst below hbound.le hbody.le (hv.imp_left (hfree v))
  have hr₁m := hr₁.subst.mono fun v (hv : Γ.Reach n n₁ v) => hv.mono hbody.le
  refine ⟨hr₁m.compose hr₂.subst fun v hv => hv, fun v hv => ?_⟩
  obtain ⟨⟨hreach, hget₁⟩, hget₂⟩ := hr₂.ty v hv
  exact ⟨hreach, by simp [TypeSubst.get?_compose, hget₁, hget₂]⟩

namespace Context

/-- A run from `n` on finds the free variables below its own, and nothing that
it may put in is quantified in the context. -/
structure Ready (Γ : Context) (n : TyVar) (P : TyVar → Prop) : Prop where
  below : ∀ v ∈ Γ.freeVars, v < n
  free : ∀ v ∈ Γ.freeVars, P v
  fresh : ∀ v, n ≤ v → P v
  quantified : ∀ x σ, Γ.get? x = some σ → ∀ v ∈ σ.vars, ¬ P v

namespace Ready

variable {Γ : Context} {n m : TyVar} {P : TyVar → Prop} {s : TypeSubst}

theorem reach (h : Γ.Ready n P) {v : TyVar} (hv : Γ.Reach n m v) : P v :=
  hv.elim (h.free v) fun hle => h.fresh v hle.1

theorem solved (h : Γ.Ready n P) (hs : s.Solved (Γ.Reach n m)) : s.Solved P :=
  hs.mono fun _ => h.reach

theorem admits (h : Γ.Ready n P) (hs : s.Solved P) : Γ.Admits s := by
  intro v hv w hw σ hσ hq
  obtain ⟨x, hx⟩ := OrderedMap.mem_values.1 hσ
  refine h.quantified x σ hx w hq ?_
  rcases hs.mem_freeVars_apply_var hw with rfl | hP
  · exact h.free w hv
  · exact hP

theorem noCapture (h : Γ.Ready n P) (hs : s.Solved P) : Γ.NoCapture s := (h.admits hs).noCapture

theorem extend (h : Γ.Ready n P) (p : Name) : (Γ.extend p (.mono (.var n))).Ready (n + 1) P where
  below := lt_of_mem_freeVars_extend h.below
  free v hv := by
    rcases mem_freeVars_extend hv with hv | hv
    · exact h.free v hv
    · obtain rfl := Ty.mem_freeVars_var.1 (Scheme.freeVars_mono hv)
      exact h.fresh v (Nat.le_refl v)
  fresh v hv := h.fresh v (Nat.le_of_succ_le hv)
  quantified x σ hx v hv := by
    rw [get?_extend] at hx
    split at hx
    · obtain rfl := Option.some.inj hx
      simp [Scheme.mono] at hv
    · exact h.quantified x σ hx v hv

theorem apply (h : Γ.Ready n P) (hs : s.Solved (Γ.Reach n m)) (hm : n ≤ m) :
    (Γ.apply s).Ready m P where
  below := lt_of_mem_freeVars_apply hs h.below hm
  free v hv := h.reach (mem_freeVars_apply_solved hs hv).1
  fresh v hv := h.fresh v (Nat.le_trans hm hv)
  quantified x σ hx v hv := by
    rw [get?_apply, Option.map_eq_some_iff] at hx
    obtain ⟨σ', hσ', rfl⟩ := hx
    exact h.quantified x σ' hσ' v hv

theorem generalize (h : Γ.Ready n P) (name : Name) {ty : Ty} (hty : ∀ v ∈ ty.freeVars, v < n) :
    (Γ.extend name (Γ.generalize ty)).Ready n (fun v => v ∈ Γ.freeVars ∨ n ≤ v) where
  below v hv := h.below v ((mem_freeVars_extend hv).elim id mem_freeVars_generalize)
  free v hv := .inl ((mem_freeVars_extend hv).elim id mem_freeVars_generalize)
  fresh v hv := .inr hv
  quantified x σ hx v hv := by
    rw [get?_extend] at hx
    split at hx
    · obtain rfl := Option.some.inj hx
      obtain ⟨hmem, hfree⟩ := mem_vars_generalize.1 hv
      exact not_or.2 ⟨hfree, Nat.not_le.2 (hty v hmem)⟩
    · exact fun hP => h.quantified x σ hx v hv (hP.elim (h.free v) (h.fresh v))

end Ready

theorem exists_max?_of_mem {l : List TyVar} {v : TyVar} (h : v ∈ l) :
    ∃ k, l.max? = some k ∧ v ≤ k := by
  obtain ⟨k, hk⟩ := Option.isSome_iff_exists.1 (List.isSome_max?_of_mem h)
  exact ⟨k, hk, (List.max?_eq_some_iff.1 hk).2 v h⟩

theorem exists_maxVar? {Γ : Context} {x : Name} {σ : Scheme} (hx : Γ.get? x = some σ) {v : TyVar}
    (hv : v ∈ σ.ty.freeVars ∨ v ∈ σ.vars) : ∃ k, Γ.maxVar? = some k ∧ v ≤ k := by
  have hmem : v ∈ σ.ty.freeVars.elems ++ σ.vars := List.mem_append.2 hv
  obtain ⟨k, hk, hvk⟩ := exists_max?_of_mem hmem
  have hmax : k ∈ Γ.values.filterMap Scheme.maxVar? :=
    List.mem_filterMap.2 ⟨σ, OrderedMap.mem_values.2 ⟨x, hx⟩, hk⟩
  obtain ⟨l, hl, hkl⟩ := exists_max?_of_mem hmax
  exact ⟨l, hl, Nat.le_trans hvk hkl⟩

theorem next_le_next_reserve {Γ : Context} (st : Inferencer) {x : Name} {σ : Scheme}
    (hx : Γ.get? x = some σ) {v : TyVar} (hv : v ∈ σ.ty.freeVars ∨ v ∈ σ.vars) :
    v.next ≤ (st.reserve Γ).next := by
  obtain ⟨k, hk, hvk⟩ := exists_maxVar? hx hv
  simp only [Inferencer.reserve, hk, TyVar.next]
  grind

theorem lt_next_reserve {Γ : Context} {st : Inferencer} (room : (st.reserve Γ).next < TyVar.last)
    {x : Name} {σ : Scheme} (hx : Γ.get? x = some σ) {v : TyVar}
    (hv : v ∈ σ.ty.freeVars ∨ v ∈ σ.vars) : v < (st.reserve Γ).next := by
  have hle := next_le_next_reserve st hx hv
  simp only [TyVar.next] at hle
  grind

/-- The context mentions only variables before `n`, quantified ones included. -/
def Below (Γ : Context) (n : TyVar) : Prop :=
  ∀ x σ, Γ.get? x = some σ → ∀ v, v ∈ σ.ty.freeVars ∨ v ∈ σ.vars → v < n

theorem below_reserve {Γ : Context} {st : Inferencer}
    (room : (st.reserve Γ).next < TyVar.last) : Γ.Below (st.reserve Γ).next :=
  fun _ _ hx _ hv => lt_next_reserve room hx hv

theorem Below.lt_of_mem_freeVars {Γ : Context} {n : TyVar} (h : Γ.Below n) :
    ∀ v ∈ Γ.freeVars, v < n := by
  intro v hv
  obtain ⟨x, σ, hx, hσ⟩ := mem_freeVars_iff.1 hv
  exact h x σ hx v (.inl (Scheme.mem_freeVars.1 hσ).1)

theorem Clean.ready_of_lt {Γ : Context} (clean : Γ.Clean) {n : TyVar} (above : Γ.Below n) :
    Γ.Ready n (fun v => v ∈ Γ.freeVars ∨ n ≤ v) where
  below := above.lt_of_mem_freeVars
  free v hv := .inl hv
  fresh v hv := .inr hv
  quantified x σ hx v hv := by
    have hfree := clean_iff.1 clean x σ hx v hv
    exact not_or.2 ⟨hfree, Nat.not_le.2 (above x σ hx v (.inr hv))⟩

theorem Clean.ready {Γ : Context} (clean : Γ.Clean) {st : Inferencer}
    (room : (st.reserve Γ).next < TyVar.last) :
    Γ.Ready (st.reserve Γ).next (fun v => v ∈ Γ.freeVars ∨ (st.reserve Γ).next ≤ v) :=
  clean.ready_of_lt (below_reserve room)

theorem Clean.exists_ready {Γ : Context} (clean : Γ.Clean) :
    ∃ n, Γ.Ready n (fun v => v ∈ Γ.freeVars ∨ n ≤ v) := by
  refine ⟨Γ.maxVar?.getD 0 + 1, clean.ready_of_lt ?_⟩
  intro x σ hx v hv
  obtain ⟨k, hk, hvk⟩ := exists_maxVar? hx hv
  rw [hk]
  exact Nat.lt_succ_of_le hvk

end Context

end NamedLambda
