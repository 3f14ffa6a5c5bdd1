import Mathlib.Data.List.Nodup
import NamedLambda.Proofs.TypeRenumbering

/-!
# Equivalent types

Types with one canonical form are those that differ in the numbering of their variables, and
two variables of the one are never one variable of the other (`Ty.equivalent_exact`). The
canonical form is itself a renumbering, which can be undone, so two types with the same one
are renumberings of each other. Read from left to right, its variables come up in their order.
-/

namespace NamedLambda.Ty

theorem mapVars_mapVars (f g : TyVar → TyVar) (ty : Ty) :
    (ty.mapVars f).mapVars g = ty.mapVars (g ∘ f) := by
  simp only [mapVars_eq_bind, bind_bind, bind_var, Function.comp_apply]

theorem setOf_mem_freeVars_mapVars (f : TyVar → TyVar) (ty : Ty) :
    {v | v ∈ (ty.mapVars f).freeVars} = f '' {v | v ∈ ty.freeVars} := by
  ext w
  simp only [mapVars_eq_bind, Set.mem_ofPred_eq, mem_freeVars_bind, mem_freeVars_var, Set.mem_image]
  exact exists_congr fun v => and_congr_right fun _ => eq_comm

/-- The second type is the first one with other variables, different ones for different ones. -/
def Renumbers (a b : Ty) : Prop :=
  ∃ f : TyVar → TyVar, Set.InjOn f {v | v ∈ a.freeVars} ∧ a.mapVars f = b

namespace Renumbers

theorem symm {a b : Ty} (h : Renumbers a b) : Renumbers b a := by
  obtain ⟨f, inj, rfl⟩ := h
  refine ⟨Function.invFunOn f {v | v ∈ a.freeVars}, ?_, ?_⟩
  · rw [setOf_mem_freeVars_mapVars]
    exact Function.invFunOn_injOn_image f _
  · rw [mapVars_mapVars]
    exact mapVars_eq_self fun v hv => inj.leftInvOn_invFunOn hv

theorem trans {a b c : Ty} (h : Renumbers a b) (h' : Renumbers b c) : Renumbers a c := by
  obtain ⟨f, inj, rfl⟩ := h
  obtain ⟨g, inj', rfl⟩ := h'
  rw [setOf_mem_freeVars_mapVars] at inj'
  exact ⟨g ∘ f, inj'.comp inj (Set.mapsTo_image f _), (mapVars_mapVars f g a).symm⟩

end Renumbers

theorem injOn_idxOf (ty : Ty) :
    Set.InjOn (ty.firstOccurrences []).idxOf {v | v ∈ ty.freeVars} := by
  intro v hv w _ hvw
  exact (List.idxOf_inj (mem_firstOccurrences.2 (.inr hv))).1 hvw

theorem renumbers_canonical (ty : Ty) : Renumbers ty ty.canonical := ⟨_, ty.injOn_idxOf, rfl⟩

theorem canonical_canonical (ty : Ty) : ty.canonical.canonical = ty.canonical :=
  canonical_mapVars ty.injOn_idxOf

theorem equivalent_iff_renumbers {a b : Ty} : a.equivalent b = true ↔ Renumbers a b := by
  rw [equivalent, decide_eq_true_iff]
  constructor
  · intro h
    exact a.renumbers_canonical.trans (h ▸ b.renumbers_canonical.symm)
  · rintro ⟨f, inj, rfl⟩
    exact (canonical_mapVars inj).symm

/-- The variables from left to right, each as often as it occurs. -/
def occurrences : Ty → List TyVar
  | var v => [v]
  | base _ => []
  | arrow dom cod => dom.occurrences ++ cod.occurrences

theorem firstOccurrences_eq (seen : List TyVar) (ty : Ty) :
    ty.firstOccurrences seen = seen ++ (ty.occurrences.removeAll seen).eraseDups := by
  induction ty generalizing seen with
  | var v =>
    by_cases hv : v ∈ seen <;>
      simp [firstOccurrences, occurrences, List.removeAll, List.eraseDups_cons, hv]
  | base name => simp [firstOccurrences, occurrences, List.removeAll]
  | arrow dom cod ihd ihc =>
    have rest : cod.occurrences.removeAll (seen ++ (dom.occurrences.removeAll seen).eraseDups) =
        (cod.occurrences.removeAll seen).removeAll (dom.occurrences.removeAll seen) := by
      simp only [List.removeAll, List.filter_filter]
      exact List.filter_congr fun v _ => by grind [List.mem_eraseDups]
    have split : (arrow dom cod).occurrences.removeAll seen =
        dom.occurrences.removeAll seen ++ cod.occurrences.removeAll seen := by
      simp [occurrences, List.removeAll]
    rw [firstOccurrences, ihd, ihc, rest, split, List.eraseDups_append, List.append_assoc]

theorem nodup_firstOccurrences {seen : List TyVar} (h : seen.Nodup) (ty : Ty) :
    (ty.firstOccurrences seen).Nodup := by
  induction ty generalizing seen with
  | var v =>
    rw [firstOccurrences]
    split
    · exact h
    · next hv => exact List.nodup_append.2 ⟨h, List.nodup_singleton v, by grind⟩
  | base name => exact h
  | arrow dom cod ihd ihc => exact ihc (ihd h)

theorem length_firstOccurrences (ty : Ty) : (ty.firstOccurrences []).length = ty.freeVars.size := by
  apply List.Perm.length_eq
  rw [List.perm_ext_iff_of_nodup (nodup_firstOccurrences List.nodup_nil ty)
    ty.freeVars.nodup_elems]
  intro v
  simp [mem_firstOccurrences, OrderedSet.mem_def]

theorem map_idxOf_self {l : List TyVar} (h : l.Nodup) : l.map l.idxOf = List.range l.length := by
  apply List.ext_getElem (by simp)
  intro i hi _
  simpa using h.idxOf_getElem i (by simpa using hi)

theorem firstOccurrences_canonical (ty : Ty) :
    ty.canonical.firstOccurrences [] = List.range ty.freeVars.size := by
  calc ty.canonical.firstOccurrences []
    _ = (ty.firstOccurrences []).map (ty.firstOccurrences []).idxOf :=
      @firstOccurrences_mapVars _ ty [] (by simpa using ty.injOn_idxOf)
    _ = List.range (ty.firstOccurrences []).length :=
      map_idxOf_self (nodup_firstOccurrences List.nodup_nil ty)
    _ = List.range ty.freeVars.size := by rw [length_firstOccurrences]

/-- Two types are equivalent exactly if one becomes the other when its variables are replaced
one for one. The canonical form is one of the equivalent types and its own canonical form. Its
variables, in the order in which they first occur, are the numbers from zero. -/
theorem equivalent_exact (a b : Ty) :
    (a.equivalent b = true ↔
      ∃ f : TyVar → TyVar, Set.InjOn f {v | v ∈ a.freeVars} ∧ a.mapVars f = b) ∧
    a.canonical.canonical = a.canonical ∧ a.equivalent a.canonical = true ∧
    a.canonical.occurrences.eraseDups = List.range a.freeVars.size := by
  refine ⟨equivalent_iff_renumbers, a.canonical_canonical,
    equivalent_iff_renumbers.2 a.renumbers_canonical, ?_⟩
  have hlist := firstOccurrences_eq [] a.canonical
  rw [firstOccurrences_canonical, List.removeAll_nil, List.nil_append] at hlist
  exact hlist.symm

/-- It is not enough that replacing variables makes the one of the other. -/
example :
    let a := arrow (var 0) (var 1)
    let b := arrow (var 0) (var 0)
    a.mapVars (fun _ => 0) = b ∧ a.equivalent b = false := by decide

end NamedLambda.Ty
