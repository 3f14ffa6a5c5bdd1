import NamedLambda.Proofs.TypeValuation
import NamedLambda.Typing.Unification

/-!
# Unification is most general

`Unification.Solves` lists the ways in which two types are unified or found to
clash, and `unify` takes one of them (`solves_unify`). Wherever types have
values, an equation of two types entails what unification makes of it
(`Solves.entails`): on success that every variable has the value of the type put
in for it, and on failure that the two reported types have one value. Finite
types cannot have it, so they have no unifier at all; infinite types might.
-/

namespace NamedLambda

namespace UnifyError

def pair : UnifyError → Ty × Ty
  | infinite v ty => (.var v, ty)
  | mismatch expected found => (expected, found)

/-- A variable strictly inside a type, or two different heads, neither of them
a variable. -/
inductive Clash : UnifyError → Prop
  | infinite {v : TyVar} {ty : Ty} : v ∈ ty.freeVars → ty ≠ .var v → Clash (.infinite v ty)
  | bases {m n : String} : m ≠ n → Clash (.mismatch (.base m) (.base n))
  | baseArrow (m : String) (c d : Ty) : Clash (.mismatch (.base m) (.arrow c d))
  | arrowBase (a b : Ty) (n : String) : Clash (.mismatch (.arrow a b) (.base n))

theorem Clash.bind_ne {e : UnifyError} (h : e.Clash) (f : TyVar → Ty) :
    e.pair.1.bind f ≠ e.pair.2.bind f := by
  cases h with
  | infinite hv hne => exact Ty.bind_ne_of_mem_freeVars hv hne
  | bases hne => exact fun heq => hne (Ty.base.inj heq)
  | baseArrow => exact fun heq => Ty.noConfusion heq
  | arrowBase => exact fun heq => Ty.noConfusion heq

end UnifyError

namespace TypeSubst

/-- The entries mention only these variables, and what is put in mentions none
that is replaced. -/
structure Solved (s : TypeSubst) (P : TyVar → Prop) : Prop where
  domain : ∀ v ty, s.get? v = some ty → P v
  range : ∀ v ty, s.get? v = some ty → ∀ w ∈ ty.freeVars, P w ∧ s.get? w = none

namespace Solved

theorem empty (P : TyVar → Prop) : Solved ∅ P :=
  ⟨fun _ _ h => by simp at h, fun _ _ h => by simp at h⟩

theorem singleton {v : TyVar} {ty : Ty} {P : TyVar → Prop} (hv : P v)
    (hty : ∀ w ∈ ty.freeVars, P w) (h : v ∉ ty.freeVars) : Solved (.singleton v ty) P := by
  constructor
  · intro w u hw
    rw [OrderedMap.get?_singleton] at hw
    split at hw
    · rename_i heq
      exact heq ▸ hv
    · simp at hw
  · intro w u hw x hx
    rw [OrderedMap.get?_singleton] at hw
    split at hw
    · obtain rfl := Option.some.inj hw
      have hne : x ≠ v := by
        rintro rfl
        exact h hx
      exact ⟨hty x hx, by simp [hne]⟩
    · simp at hw

variable {s t : TypeSubst} {P Q : TyVar → Prop}

theorem mono (h : s.Solved P) (hPQ : ∀ v, P v → Q v) : s.Solved Q :=
  ⟨fun v ty hv => hPQ v (h.domain v ty hv),
    fun v ty hv w hw => ⟨hPQ w (h.range v ty hv w hw).1, (h.range v ty hv w hw).2⟩⟩

theorem not_replaced (h : s.Solved P) {ty : Ty} {w : TyVar} (hw : w ∈ (ty.apply s).freeVars) :
    s.get? w = none := by
  obtain ⟨v, _, hwv⟩ := Ty.mem_freeVars_apply.1 hw
  cases hv : s.get? v with
  | some u =>
    rw [apply_var_of_some hv] at hwv
    exact (h.range v u hv w hwv).2
  | none =>
    rw [apply_var_of_none hv] at hwv
    obtain rfl := Ty.mem_freeVars_var.1 hwv
    exact hv

theorem mem_freeVars_apply (h : s.Solved P) {ty : Ty} {w : TyVar}
    (hw : w ∈ (ty.apply s).freeVars) : w ∈ ty.freeVars ∨ P w := by
  obtain ⟨v, hv, hwv⟩ := Ty.mem_freeVars_apply.1 hw
  cases hs : s.get? v with
  | some u =>
    rw [apply_var_of_some hs] at hwv
    exact .inr (h.range v u hs w hwv).1
  | none =>
    rw [apply_var_of_none hs] at hwv
    obtain rfl := Ty.mem_freeVars_var.1 hwv
    exact .inl hv

theorem mem_freeVars_apply_var (h : s.Solved P) {v w : TyVar}
    (hw : w ∈ ((Ty.var v).apply s).freeVars) : w = v ∨ P w :=
  (h.mem_freeVars_apply hw).imp_left Ty.mem_freeVars_var.1

/-- What comes second must not bring back what the first has replaced. -/
theorem compose (hs : s.Solved P) (ht : t.Solved Q) (hQ : ∀ v, Q v → P v ∧ s.get? v = none) :
    (t.compose s).Solved P := by
  constructor
  · intro v ty hv
    rw [get?_compose] at hv
    cases hsv : s.get? v with
    | some u => exact hs.domain v u hsv
    | none => exact (hQ v (ht.domain v ty (by simpa [hsv] using hv))).1
  · intro v ty hv w hw
    have unreplaced (h : P w) (hsw : s.get? w = none) (htw : t.get? w = none) :
        P w ∧ (t.compose s).get? w = none := ⟨h, by simp [get?_compose, hsw, htw]⟩
    rw [get?_compose] at hv
    cases hsv : s.get? v with
    | some u =>
      obtain rfl : u.apply t = ty := by simpa [hsv] using hv
      have htw := ht.not_replaced hw
      rcases ht.mem_freeVars_apply hw with hu | hq
      · obtain ⟨hP, hsw⟩ := hs.range v u hsv w hu
        exact unreplaced hP hsw htw
      · exact unreplaced (hQ w hq).1 (hQ w hq).2 htw
    | none =>
      have htv : t.get? v = some ty := by simpa [hsv] using hv
      obtain ⟨hq, htw⟩ := ht.range v ty htv w hw
      exact unreplaced (hQ w hq).1 (hQ w hq).2 htw

theorem get?_eq_none (h : s.Solved P) {v : TyVar} (hv : ¬ P v) : s.get? v = none :=
  Option.eq_none_iff_forall_ne_some.2 fun ty hget => hv (h.domain v ty hget)

theorem get?_ne_self (h : s.Solved P) (v : TyVar) : s.get? v ≠ some (.var v) := by
  intro hv
  have := (h.range v _ hv v (by simp)).2
  simp [hv] at this

end Solved

end TypeSubst

namespace Unification

/-- The ways in which a unification of two types can go. -/
inductive Solves : Ty → Ty → Except UnifyError TypeSubst → Prop
  | same (a : Ty) : Solves a a (.ok ∅)
  | left {v : TyVar} {ty : Ty} : v ∉ ty.freeVars → Solves (.var v) ty (.ok (.singleton v ty))
  | right {v : TyVar} {ty : Ty} : v ∉ ty.freeVars → Solves ty (.var v) (.ok (.singleton v ty))
  | clash {a b : Ty} {e : UnifyError} : e.Clash → e.pair = (a, b) ∨ e.pair = (b, a) →
      Solves a b (.error e)
  | domains {a b c d : Ty} {e : UnifyError} : Solves a c (.error e) →
      Solves (.arrow a b) (.arrow c d) (.error e)
  | codomains {a b c d : Ty} {s : TypeSubst} {e : UnifyError} : Solves a c (.ok s) →
      Solves (b.apply s) (d.apply s) (.error e) → Solves (.arrow a b) (.arrow c d) (.error e)
  | arrows {a b c d : Ty} {s t : TypeSubst} : Solves a c (.ok s) →
      Solves (b.apply s) (d.apply s) (.ok t) → Solves (.arrow a b) (.arrow c d) (.ok (t.compose s))

theorem confined_of_unify {a b : Ty} {s : TypeSubst} (h : unify a b = .ok s) :
    s.Confined (vars a b) := by
  rw [unify] at h
  cases hs : solve a b with
  | error e => simp [hs, Except.map] at h
  | ok s' =>
    obtain rfl : s'.1 = s := by simpa [hs, Except.map] using h
    exact s'.2

theorem solves_var_left (v : TyVar) (ty : Ty) : Solves (.var v) ty (unify (.var v) ty) := by
  rw [unify_var_left]
  split
  · rename_i h
    exact h ▸ .same _
  · rename_i h
    split
    · rename_i ho
      exact .clash (.infinite (Ty.mem_freeVars.2 ho) h) (.inl rfl)
    · rename_i ho
      exact .left (mt Ty.mem_freeVars.1 ho)

theorem solves_var_right (v : TyVar) {ty : Ty} (h : ∀ w, ty ≠ .var w) :
    Solves ty (.var v) (unify ty (.var v)) := by
  rw [unify_var_right v h]
  split
  · rename_i ho
    exact .clash (.infinite (Ty.mem_freeVars.2 ho) (h v)) (.inr rfl)
  · rename_i ho
    exact .right (mt Ty.mem_freeVars.1 ho)

theorem unify_base_arrow (m : String) (c d : Ty) :
    unify (.base m) (.arrow c d) = .error (.mismatch (.base m) (.arrow c d)) := by
  rw [unify, solve]
  · rfl
  all_goals simp

theorem unify_arrow_base (a b : Ty) (n : String) :
    unify (.arrow a b) (.base n) = .error (.mismatch (.arrow a b) (.base n)) := by
  rw [unify, solve]
  · rfl
  all_goals simp

theorem solves_unify (a b : Ty) : Solves a b (unify a b) := by
  match a, b with
  | .var v, ty => exact solves_var_left v ty
  | .base m, .var v => exact solves_var_right v (by simp)
  | .arrow a b, .var v => exact solves_var_right v (by simp)
  | .base m, .base n =>
    rw [unify_base]
    split
    · rename_i h
      exact h ▸ .same _
    · rename_i h
      exact .clash (.bases h) (.inl rfl)
  | .base m, .arrow c d =>
    rw [unify_base_arrow]
    exact .clash (.baseArrow m c d) (.inl rfl)
  | .arrow a b, .base n =>
    rw [unify_arrow_base]
    exact .clash (.arrowBase a b n) (.inl rfl)
  | .arrow a b, .arrow c d =>
    have hdom := solves_unify a c
    rw [unify_arrow]
    cases hs : unify a c with
    | error e =>
      rw [hs] at hdom
      exact .domains hdom
    | ok s =>
      have hcod := solves_unify (b.apply s) (d.apply s)
      rw [hs] at hdom
      simp only [bind, Except.bind]
      cases ht : unify (b.apply s) (d.apply s) with
      | error e =>
        rw [ht] at hcod
        exact .codomains hdom hcod
      | ok t =>
        rw [ht] at hcod
        exact .arrows hdom hcod
termination_by ((vars a b).size, a.size + b.size)
decreasing_by
  · exact domains_lt
  · exact codomains_lt (confined_of_unify hs)

/-- Wherever the types have one value, a variable has the value of what is put
in for it, and the types that clash have one value. -/
theorem Solves.entails {a b : Ty} {result : Except UnifyError TypeSubst} (h : Solves a b result)
    {D : Type} (M : Ty.Model D) (ρ : TyVar → D) (heq : a.eval M ρ = b.eval M ρ) :
    match result with
    | .ok s => ∀ v, ((Ty.var v).apply s).eval M ρ = ρ v
    | .error e => e.pair.1.eval M ρ = e.pair.2.eval M ρ := by
  have keeps {s : TypeSubst} (hs : ∀ v, ((Ty.var v).apply s).eval M ρ = ρ v) (ty : Ty) :
      (ty.apply s).eval M ρ = ty.eval M ρ := by
    rw [Ty.eval_apply]
    exact Ty.eval_congr fun v _ => hs v
  induction h with
  | same a =>
    intro v
    rw [TypeSubst.apply_empty]
    rfl
  | @left v ty _ =>
    have value : ρ v = ty.eval M ρ := heq
    intro w
    by_cases hw : w = v
    · simp [Ty.apply, hw, value]
    · simp [Ty.apply, hw, Ty.eval]
  | @right v ty _ =>
    have value : ty.eval M ρ = ρ v := heq
    intro w
    by_cases hw : w = v
    · simp [Ty.apply, hw, value]
    · simp [Ty.apply, hw, Ty.eval]
  | clash _ hpair =>
    rcases hpair with hpair | hpair
    · simpa [hpair] using heq
    · simpa [hpair] using heq.symm
  | domains _ ih => exact ih (M.arrow_inj heq).1
  | @codomains a b c d s e _ _ ihs ihe =>
    obtain ⟨hdom, hcod⟩ := M.arrow_inj heq
    have hs := ihs hdom
    exact ihe (by rw [keeps hs b, keeps hs d, hcod])
  | @arrows a b c d s t _ _ ihs iht =>
    obtain ⟨hdom, hcod⟩ := M.arrow_inj heq
    have hs := ihs hdom
    have ht := iht (by rw [keeps hs b, keeps hs d, hcod])
    intro v
    rw [TypeSubst.apply_compose, keeps ht, hs v]

theorem apply_singleton {v : TyVar} {ty image : Ty} (h : v ∉ ty.freeVars) :
    ty.apply (.singleton v image) = ty := by
  refine Ty.apply_eq_self fun w hw => ?_
  have hne : w ≠ v := by
    rintro rfl
    exact h hw
  simp [hne]

theorem Solves.apply_eq {a b : Ty} {s : TypeSubst} (h : Solves a b (.ok s)) :
    a.apply s = b.apply s := by
  generalize hr : Except.ok s = result at h
  induction h generalizing s with
  | same a => rfl
  | @left v ty hv =>
    cases hr
    rw [TypeSubst.apply_var_of_some (by simp : OrderedMap.get? _ v = some ty)]
    exact (apply_singleton hv).symm
  | @right v ty hv =>
    cases hr
    rw [TypeSubst.apply_var_of_some (by simp : OrderedMap.get? _ v = some ty)]
    exact apply_singleton hv
  | clash => cases hr
  | domains => cases hr
  | codomains => cases hr
  | arrows _ _ ihs iht =>
    cases hr
    simp only [Ty.apply, TypeSubst.apply_compose, ihs rfl, iht rfl]

theorem Solves.solved {a b : Ty} {s : TypeSubst} (h : Solves a b (.ok s)) :
    s.Solved (· ∈ vars a b) := by
  generalize hr : Except.ok s = result at h
  induction h generalizing s with
  | same a =>
    cases hr
    exact .empty _
  | left hv =>
    cases hr
    exact .singleton (by simp [vars]) (fun w hw => by simp [vars, hw]) hv
  | right hv =>
    cases hr
    exact .singleton (by simp [vars]) (fun w hw => by simp [vars, hw]) hv
  | clash => cases hr
  | domains => cases hr
  | codomains => cases hr
  | @arrows a b c d s t _ _ ihs iht =>
    cases hr
    have hs : s.Solved (· ∈ vars (.arrow a b) (.arrow c d)) := (ihs rfl).mono vars_domains_subset
    have side {ty : Ty} (hty : ∀ v ∈ ty.freeVars, v ∈ vars b d) (v : TyVar)
        (hv : v ∈ (ty.apply s).freeVars) :
        v ∈ vars (.arrow a b) (.arrow c d) ∧ s.get? v = none := by
      refine ⟨?_, hs.not_replaced hv⟩
      rcases hs.mem_freeVars_apply hv with h | h
      · exact vars_codomains_subset v (hty v h)
      · exact h
    refine hs.compose (iht rfl) fun v hv => ?_
    rcases OrderedSet.mem_union.1 hv with hv | hv
    · exact side (fun w hw => OrderedSet.mem_union.2 (.inl hw)) v hv
    · exact side (fun w hw => OrderedSet.mem_union.2 (.inr hw)) v hv

theorem Solves.clash_of_error {a b : Ty} {e : UnifyError} (h : Solves a b (.error e)) :
    e.Clash := by
  generalize hr : Except.error e = result at h
  induction h with
  | clash he _ =>
    cases hr
    exact he
  | domains _ ih => exact ih hr
  | codomains _ _ _ ih => exact ih hr
  | same => cases hr
  | left => cases hr
  | right => cases hr
  | arrows => cases hr

end Unification

/-- What makes two types equal, through which all that makes them equal
factors. -/
structure TypeSubst.MostGeneral (s : TypeSubst) (a b : Ty) : Prop where
  unifies : a.apply s = b.apply s
  general : ∀ θ : TypeSubst, a.apply θ = b.apply θ →
    ∀ v, ((Ty.var v).apply s).apply θ = (Ty.var v).apply θ

theorem Unification.solves_of_unify {a b : Ty} {result : Except UnifyError TypeSubst}
    (h : unify a b = result) : Solves a b result := h ▸ solves_unify a b

theorem apply_eq_of_unify {a b : Ty} {s : TypeSubst} (h : unify a b = .ok s) :
    a.apply s = b.apply s := (Unification.solves_of_unify h).apply_eq

theorem solved_of_unify {a b : Ty} {s : TypeSubst} (h : unify a b = .ok s) :
    s.Solved (· ∈ Unification.vars a b) := (Unification.solves_of_unify h).solved

theorem clash_of_unify {a b : Ty} {e : UnifyError} (h : unify a b = .error e) : e.Clash :=
  (Unification.solves_of_unify h).clash_of_error

theorem unify_eq_bind {a b : Ty} {s : TypeSubst} (h : unify a b = .ok s) {f : TyVar → Ty}
    (heq : a.bind f = b.bind f) (v : TyVar) : ((Ty.var v).apply s).bind f = f v :=
  (Unification.solves_of_unify h).entails .types f heq v

theorem bind_ne_of_unify {a b : Ty} {e : UnifyError} (h : unify a b = .error e)
    (f : TyVar → Ty) : a.bind f ≠ b.bind f := by
  intro heq
  have hpair := (Unification.solves_of_unify h).entails .types f heq
  exact (clash_of_unify h).bind_ne f hpair

/-- Unification answers with a most general unifier in solved form, on the
variables of the two types, or else there is no unifier. The clash it reports
then holds of the two types wherever types have values. -/
theorem unify_mostGeneral (a b : Ty) :
    match unify a b with
    | .ok s => s.MostGeneral a b ∧ s.Solved (· ∈ Unification.vars a b) ∧
        ∀ v, s.get? v ≠ some (.var v)
    | .error e => (∀ θ : TypeSubst, a.apply θ ≠ b.apply θ) ∧ e.Clash ∧
        ∀ {D : Type} (M : Ty.Model D) (ρ : TyVar → D), a.eval M ρ = b.eval M ρ →
          e.pair.1.eval M ρ = e.pair.2.eval M ρ := by
  cases h : unify a b with
  | ok s =>
    have general (θ : TypeSubst) (heq : a.apply θ = b.apply θ) (v : TyVar) :
        ((Ty.var v).apply s).apply θ = (Ty.var v).apply θ := by
      rw [Ty.apply_eq_bind θ a, Ty.apply_eq_bind θ b] at heq
      rw [Ty.apply_eq_bind θ]
      exact unify_eq_bind h heq v
    have hsolved := solved_of_unify h
    exact ⟨⟨apply_eq_of_unify h, general⟩, hsolved, hsolved.get?_ne_self⟩
  | error e =>
    have hsolves := Unification.solves_unify a b
    rw [h] at hsolves
    refine ⟨fun θ heq => ?_, hsolves.clash_of_error, fun M ρ heq => hsolves.entails M ρ heq⟩
    rw [Ty.apply_eq_bind θ a, Ty.apply_eq_bind θ b] at heq
    exact bind_ne_of_unify h _ heq

end NamedLambda
