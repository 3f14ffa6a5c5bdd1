import NamedLambda.Proofs.RelevantBindings

/-!
# Definitions one after another

A context that starts clean stays clean, whatever is defined in it and in whatever
order (`Context.Clean.defineAll`), although each inference starts its numbers anew:
they start above all that the context mentions. In a closed context nothing is left
for a substitution to act on, so a name keeps its scheme until it is defined again
(`Context.Closed.get?_defineAll`).
-/

namespace NamedLambda

/-- All variables of the type are quantified. -/
def Scheme.Closed (σ : Scheme) : Prop := ∀ v, v ∉ σ.freeVars

theorem Scheme.Closed.apply_eq {σ : Scheme} (h : σ.Closed) (s : TypeSubst) : σ.apply s = σ := by
  refine congrArg (Scheme.mk σ.vars) (Ty.apply_eq_self fun v hv => ?_)
  have hq : v ∈ σ.vars := Decidable.byContradiction fun hq => h v (mem_freeVars.2 ⟨hv, hq⟩)
  simp [TypeSubst.without, hq]

namespace Context

/-- The context after a call of `define`: a success replaces it, and a failure leaves
it as it was. -/
def redefine (Γ : Context) (name : Name) (t : Term) : Context :=
  match Γ.define name t with
  | .ok Δ => Δ
  | .error _ => Γ

def defineAll (Γ : Context) (ds : List (Name × Term)) : Context :=
  ds.foldl (fun Δ d => Δ.redefine d.1 d.2) Γ

/-- No inference of the calls comes to the last type variable. -/
def HasRoom : Context → List (Name × Term) → Prop
  | _, [] => True
  | Γ, d :: ds => Inferencer.Unsaturated (Inferencer.infer Γ d.2) (.forContext Γ) ∧
      (Γ.redefine d.1 d.2).HasRoom ds

theorem defineAll_append (Γ : Context) (ds es : List (Name × Term)) :
    Γ.defineAll (ds ++ es) = (Γ.defineAll ds).defineAll es := List.foldl_append

theorem hasRoom_append {Γ : Context} {ds es : List (Name × Term)} :
    Γ.HasRoom (ds ++ es) ↔ Γ.HasRoom ds ∧ (Γ.defineAll ds).HasRoom es := by
  induction ds generalizing Γ with
  | nil => simp [HasRoom, defineAll]
  | cons d ds ih => simp only [List.cons_append, HasRoom, ih, and_assoc]; rfl

/-- What a definition makes of a context: the name stands for the type inferred, with
the variables quantified that are not free in the context under the substitution found,
and the other bindings are the former ones under it. -/
structure Defines (Γ : Context) (name : Name) (r : Inference) (Δ : Context) : Prop where
  added : ∃ vars : List TyVar, Δ.get? name = some ⟨vars, r.ty⟩ ∧ vars.Nodup ∧
    ∀ v, v ∈ vars ↔ v ∈ r.ty.freeVars ∧ v ∉ (Γ.apply r.subst).freeVars
  others : ∀ x, x ≠ name → Δ.get? x = (Γ.get? x).map (Scheme.apply r.subst)

theorem defines_withInferred (Γ : Context) (name : Name) (r : Inference) :
    Γ.Defines name r (Γ.withInferred name r) where
  added := by
    refine ⟨_, ?_, OrderedSet.nodup_elems _, fun v => mem_vars_generalize⟩
    rw [withInferred, get?_extend, if_pos rfl]
    rfl
  others x hx := by rw [withInferred, get?_extend, if_neg hx, get?_apply]

theorem define_eq_ok {Γ Δ : Context} {name : Name} {t : Term} :
    Γ.define name t = .ok Δ ↔ ∃ r, Γ.infer t = .ok r ∧ Δ = Γ.withInferred name r := by
  rw [define_eq]
  cases Γ.infer t with
  | error e => simp [Except.map]
  | ok r => simp [Except.map, eq_comm]

theorem Ready.clean {Γ : Context} {n : TyVar} {P : TyVar → Prop} (h : Γ.Ready n P) : Γ.Clean :=
  clean_iff.2 fun x σ hx v hv hfree => h.quantified x σ hx v hv (h.free v hfree)

/-- One definition leaves a context clean: nothing free in it comes under a quantifier,
neither under the new one nor under those that it has. -/
theorem Clean.withInferred {Γ : Context} (clean : Γ.Clean) {t : Term} {r : Inference}
    (h : Γ.infer t = .ok r)
    (room : Inferencer.Unsaturated (Inferencer.infer Γ t) (.forContext Γ)) (name : Name) :
    (Γ.withInferred name r).Clean := by
  obtain ⟨st, hst⟩ := answer_eq_ok.1 h
  have hinfers := Infers.of_infer hst ((Inferencer.unsaturated_iff_of_ok hst).1 room)
  have ready := clean.ready (Inferencer.next_reserve_lt_of_infer room)
  have settled := hinfers.settled ready.below
  have below := settled.lt_of_mem_freeVars ready.below hinfers.le
  exact ((ready.apply settled.subst hinfers.le).generalize name below).clean

theorem Clean.redefine {Γ : Context} (clean : Γ.Clean) {t : Term}
    (room : Inferencer.Unsaturated (Inferencer.infer Γ t) (.forContext Γ)) (name : Name) :
    (Γ.redefine name t).Clean := by
  unfold Context.redefine
  split
  · next Δ hΔ =>
    obtain ⟨r, hr, rfl⟩ := define_eq_ok.1 hΔ
    exact clean.withInferred hr room name
  · exact clean

theorem Clean.defineAll {Γ : Context} (clean : Γ.Clean) {ds : List (Name × Term)}
    (room : Γ.HasRoom ds) : (Γ.defineAll ds).Clean := by
  induction ds generalizing Γ with
  | nil => exact clean
  | cons d ds ih => exact ih (clean.redefine room.1 d.1) room.2

def Closed (Γ : Context) : Prop := ∀ x σ, Γ.get? x = some σ → σ.Closed

theorem closed_empty : (∅ : Context).Closed := by
  intro x σ hx
  cases hx

namespace Closed

variable {Γ : Context}

theorem not_mem_freeVars (h : Γ.Closed) (v : TyVar) : v ∉ Γ.freeVars := by
  intro hv
  obtain ⟨x, σ, hx, hσ⟩ := mem_freeVars_iff.1 hv
  exact h x σ hx v hσ

theorem clean (h : Γ.Closed) : Γ.Clean :=
  clean_iff.2 fun _ _ _ v _ => h.not_mem_freeVars v

theorem apply_eq (h : Γ.Closed) (s : TypeSubst) : Γ.apply s = Γ := by
  refine OrderedMap.ext fun x => ?_
  rw [get?_apply]
  cases hx : Γ.get? x with
  | none => rfl
  | some σ => exact congrArg some ((h x σ hx).apply_eq s)

theorem generalize (h : Γ.Closed) (ty : Ty) : (Γ.generalize ty).Closed :=
  fun v hv => h.not_mem_freeVars v (mem_freeVars_generalize hv)

theorem withInferred (h : Γ.Closed) (name : Name) (r : Inference) :
    (Γ.withInferred name r).Closed ∧
      ∀ x, x ≠ name → (Γ.withInferred name r).get? x = Γ.get? x := by
  rw [Context.withInferred, h.apply_eq]
  refine ⟨fun x σ hx => ?_, fun x hx => by rw [get?_extend, if_neg hx]⟩
  rw [get?_extend] at hx
  split at hx
  · obtain rfl := Option.some.inj hx
    exact h.generalize r.ty
  · exact h x σ hx

/-- A call leaves a closed context closed, and it changes at most the binding of the
name that it defines. -/
theorem redefine (h : Γ.Closed) (name : Name) (t : Term) :
    (Γ.redefine name t).Closed ∧
      ∀ x, (Γ.redefine name t).get? x = Γ.get? x ∨ x = name ∧ ∃ Δ, Γ.define name t = .ok Δ := by
  unfold Context.redefine
  split
  · next Δ hΔ =>
    obtain ⟨r, hr, rfl⟩ := define_eq_ok.1 hΔ
    obtain ⟨closed, same⟩ := h.withInferred name r
    refine ⟨closed, fun x => ?_⟩
    by_cases hx : x = name
    · exact .inr ⟨hx, _, hΔ⟩
    · exact .inl (same x hx)
  · exact ⟨h, fun x => .inl rfl⟩

theorem defineAll (h : Γ.Closed) (ds : List (Name × Term)) : (Γ.defineAll ds).Closed := by
  induction ds generalizing Γ with
  | nil => exact h
  | cons d ds ih => exact ih (h.redefine d.1 d.2).1

theorem get?_defineAll (h : Γ.Closed) (ds : List (Name × Term)) (x : Name) :
    (Γ.defineAll ds).get? x = Γ.get? x ∨
      ∃ before t after Δ, ds = before ++ (x, t) :: after ∧
        (Γ.defineAll before).define x t = .ok Δ := by
  induction ds generalizing Γ with
  | nil => exact .inl rfl
  | cons d ds ih =>
    obtain ⟨name, t⟩ := d
    obtain ⟨closed, same⟩ := h.redefine name t
    rcases ih closed with hkept | ⟨before, u, after, Δ, rfl, hΔ⟩
    · rcases same x with hx | ⟨rfl, Δ, hΔ⟩
      · exact .inl (hkept.trans hx)
      · exact .inr ⟨[], t, ds, Δ, rfl, hΔ⟩
    · exact .inr ⟨(name, t) :: before, u, after, Δ, rfl, hΔ⟩

end Closed

/-- What definitions make of a clean context, call after call: it stays clean, each
success adds a generalized type and puts the substitution found into the other
bindings, and from a closed start, such as the empty context, all schemes are closed
and stay as they are until their names are defined again. -/
theorem defineAll_wellFormed {Γ : Context} (clean : Γ.Clean) {ds : List (Name × Term)}
    (room : Γ.HasRoom ds) :
    (∀ earlier later, ds = earlier ++ later → (Γ.defineAll earlier).Clean) ∧
    (∀ earlier name t later Δ, ds = earlier ++ (name, t) :: later →
      (Γ.defineAll earlier).define name t = .ok Δ →
        ∃ r, (Γ.defineAll earlier).infer t = .ok r ∧ (Γ.defineAll earlier).Defines name r Δ) ∧
    (∅ : Context).Closed ∧
    (Γ.Closed → ∀ earlier later, ds = earlier ++ later →
      (Γ.defineAll earlier).Closed ∧
      ∀ x, (Γ.defineAll ds).get? x = (Γ.defineAll earlier).get? x ∨
        ∃ before t after Δ, later = before ++ (x, t) :: after ∧
          (Γ.defineAll (earlier ++ before)).define x t = .ok Δ) := by
  refine ⟨?_, ?_, closed_empty, ?_⟩
  · rintro earlier later rfl
    exact clean.defineAll (hasRoom_append.1 room).1
  · rintro earlier name t later Δ - hΔ
    obtain ⟨r, hr, rfl⟩ := define_eq_ok.1 hΔ
    exact ⟨r, hr, defines_withInferred _ name r⟩
  · rintro closed earlier later rfl
    have reached := closed.defineAll earlier
    refine ⟨reached, fun x => ?_⟩
    simpa only [defineAll_append] using reached.get?_defineAll later x

end Context

def Term.xOfId : Term := .abs "z" (.app (.var "x") (.var "id"))

/-- The second call fails and changes nothing, and the third one finds out more about
the types of `x` and `k`, while it gives `id` another scheme. From the empty context
all schemes are closed, and `k` keeps its own when a call for `id` fails. -/
theorem Context.defineAll_wellFormed_idAndX :
    (∃ Δ r, (idAndX.defineAll [("k", .passToX "y"), ("k", .selfApply "y")]).define "id" .xOfId =
        .ok Δ ∧ Δ.Clean ∧
      (idAndX.defineAll [("k", .passToX "y"), ("k", .selfApply "y")]).Defines "id" r Δ ∧
      Δ.get? "id" = some ⟨[4], .arrow (.var 4) (.var 6)⟩ ∧
      Δ.get? "k" = some (.mono (.arrow (.arrow (.var 5) (.var 5)) (.var 6)))) ∧
    (defineAll ∅ [("id", .abs "z" (.var "z")), ("k", .idId), ("id", .selfApply "y")]).Closed ∧
    (defineAll ∅ [("id", .abs "z" (.var "z")), ("k", .idId), ("id", .selfApply "y")]).get? "k" =
      some ⟨[2], .arrow (.var 2) (.var 2)⟩ := by
  constructor
  · have hdefine : ∃ Δ, (idAndX.defineAll
        [("k", .passToX "y"), ("k", .selfApply "y")]).define "id" .xOfId = .ok Δ ∧
          idAndX.defineAll [("k", .passToX "y"), ("k", .selfApply "y"), ("id", .xOfId)] = Δ ∧
          Δ.get? "id" = some ⟨[4], .arrow (.var 4) (.var 6)⟩ ∧
          Δ.get? "k" = some (.mono (.arrow (.arrow (.var 5) (.var 5)) (.var 6))) :=
      ⟨_, by cbv, by cbv, by decide, by decide⟩
    obtain ⟨Δ, hΔ, hreached, hid, hk⟩ := hdefine
    have room : idAndX.HasRoom [("k", .passToX "y"), ("k", .selfApply "y"), ("id", .xOfId)] := by
      cbv
    obtain ⟨cleans, steps, -, -⟩ := defineAll_wellFormed clean_idAndX room
    obtain ⟨r, -, hr⟩ := steps [("k", .passToX "y"), ("k", .selfApply "y")] "id" .xOfId [] Δ rfl hΔ
    have hclean := cleans _ [] (List.append_nil _).symm
    rw [hreached] at hclean
    exact ⟨Δ, r, hΔ, hclean, hr, hid, hk⟩
  · have room : HasRoom ∅ [("id", .abs "z" (.var "z")), ("k", .idId), ("id", .selfApply "y")] := by
      cbv
    obtain ⟨-, -, closed, run⟩ := defineAll_wellFormed closed_empty.clean room
    obtain ⟨hclosed, -⟩ := run closed _ [] (List.append_nil _).symm
    exact ⟨hclosed, by cbv⟩

end NamedLambda
