import Mathlib.Data.Set.Function
import NamedLambda.Proofs.TypeValuation

/-!
# Canonical types

The canonical form of a type forgets how its variables are numbered
(`Ty.canonical_mapVars`). So two types that are instances of each other have one
canonical form (`Ty.canonical_eq_of_bind`): what takes the one to the other can
only renumber variables.
-/

namespace NamedLambda

namespace Ty

theorem mem_firstOccurrences {ty : Ty} {seen : List TyVar} {v : TyVar} :
    v ∈ ty.firstOccurrences seen ↔ v ∈ seen ∨ v ∈ ty.freeVars := by
  induction ty generalizing seen with
  | var w =>
    simp only [firstOccurrences]
    split
    · next hw =>
      simp only [mem_freeVars_var, iff_self_or]
      rintro rfl
      exact hw
    · simp
  | base name => simp [firstOccurrences]
  | arrow dom cod ihd ihc => simp [firstOccurrences, ihd, ihc, or_assoc]

theorem firstOccurrences_mapVars {f : TyVar → TyVar} {ty : Ty} {seen : List TyVar}
    (inj : Set.InjOn f {v | v ∈ seen ∨ v ∈ ty.freeVars}) :
    (ty.mapVars f).firstOccurrences (seen.map f) = (ty.firstOccurrences seen).map f := by
  induction ty generalizing seen with
  | var w =>
    have hmem : f w ∈ seen.map f ↔ w ∈ seen := by
      constructor
      · intro h
        obtain ⟨v, hv, hfv⟩ := List.mem_map.1 h
        obtain rfl := inj (.inl hv) (.inr (by simp)) hfv
        exact hv
      · exact List.mem_map_of_mem
    simp only [mapVars, firstOccurrences, hmem]
    split <;> simp
  | base name => rfl
  | arrow dom cod ihd ihc =>
    have hdom : Set.InjOn f {v | v ∈ seen ∨ v ∈ dom.freeVars} :=
      inj.mono fun v hv => hv.imp_right fun h => by simp [h]
    have hcod : Set.InjOn f {v | v ∈ dom.firstOccurrences seen ∨ v ∈ cod.freeVars} := by
      refine inj.mono ?_
      intro v (hv : v ∈ dom.firstOccurrences seen ∨ v ∈ cod.freeVars)
      show v ∈ seen ∨ v ∈ (arrow dom cod).freeVars
      simpa only [mem_firstOccurrences, mem_freeVars_arrow, or_assoc] using hv
    simp only [mapVars, firstOccurrences]
    rw [ihd hdom, ihc hcod]

theorem idxOf_map {f : TyVar → TyVar} {l : List TyVar} (inj : Set.InjOn f {v | v ∈ l})
    {v : TyVar} (hv : v ∈ l) : (l.map f).idxOf (f v) = l.idxOf v := by
  induction l with
  | nil => simp at hv
  | cons w l ih =>
    by_cases hwv : w = v
    · simp [hwv]
    · have hfwv : f w ≠ f v := fun h => hwv (inj (by simp) hv h)
      have hvl : v ∈ l := (List.mem_cons.1 hv).resolve_left (Ne.symm hwv)
      have htail := ih (inj.mono fun u hu => List.mem_cons_of_mem w hu) hvl
      simp only [List.map_cons, List.idxOf_cons, beq_false_of_ne hwv, beq_false_of_ne hfwv, htail]

theorem mapVars_eq_bind (f : TyVar → TyVar) (ty : Ty) :
    ty.mapVars f = ty.bind fun v => var (f v) := by
  induction ty with
  | var v => rfl
  | base name => rfl
  | arrow dom cod ihd ihc => simp only [bind_arrow, mapVars, ihd, ihc]

theorem canonical_mapVars {f : TyVar → TyVar} {ty : Ty} (inj : Set.InjOn f {v | v ∈ ty.freeVars}) :
    (ty.mapVars f).canonical = ty.canonical := by
  have horder : (ty.mapVars f).firstOccurrences [] = (ty.firstOccurrences []).map f :=
    @firstOccurrences_mapVars f ty [] (by simpa using inj)
  have hinj : Set.InjOn f {v | v ∈ ty.firstOccurrences []} := by
    simpa [mem_firstOccurrences] using inj
  simp only [canonical]
  rw [horder, mapVars_eq_bind f, mapVars_eq_bind, mapVars_eq_bind, bind_bind]
  apply bind_congr
  intro v hv
  exact congrArg var (idxOf_map hinj (mem_firstOccurrences.2 (.inr hv)))

/-- Types that are instances of each other differ only in the numbering of their
variables. -/
theorem canonical_eq_of_bind {a b : Ty} {f g : TyVar → Ty} (hab : a.bind f = b)
    (hba : b.bind g = a) : a.canonical = b.canonical := by
  have back : ∀ v ∈ a.freeVars, (f v).bind g = var v := by
    apply eq_of_bind_eq
    rw [← bind_bind, hab, hba, bind_self]
  have renumbers : ∀ v ∈ a.freeVars, ∃ w, f v = var w := by
    intro v hv
    cases hfv : f v with
    | var w => exact ⟨w, rfl⟩
    | _ =>
      have hback := back v hv
      rw [hfv] at hback
      cases hback
  let number : TyVar → TyVar := fun v => match f v with
    | var w => w
    | _ => v
  have hnumber : ∀ v ∈ a.freeVars, f v = var (number v) := by
    intro v hv
    obtain ⟨w, hw⟩ := renumbers v hv
    simp only [number, hw]
  have inj : Set.InjOn number {v | v ∈ a.freeVars} := by
    intro v hv w hw hvw
    have hfvw : f v = f w := by rw [hnumber v hv, hnumber w hw, hvw]
    exact var.inj ((back v hv).symm.trans (hfvw ▸ back w hw))
  calc a.canonical
    _ = (a.mapVars number).canonical := (canonical_mapVars inj).symm
    _ = b.canonical := by rw [mapVars_eq_bind, ← bind_congr hnumber, hab]

end Ty

end NamedLambda
