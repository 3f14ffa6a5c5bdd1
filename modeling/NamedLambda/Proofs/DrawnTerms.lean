import NamedLambda.Proofs.IssuedBinders
import NamedLambda.Sampling

/-!
# The limits of drawn terms

A draw that may fail does not fail where it picks from names, since an index is below their
number and there are names to pick from (`Draws.drawFrom`). For terms this needs a scope that
is not empty where the room ends. There is none at the root only, and a limit of two levels or
more leaves room for a first binder there. With that every draw of a term gives one that fits the
place it is drawn for (`Limits.draws_drawTerm`), and the whole draw keeps to the limits
(`Limits.draw_withinLimits`).
-/

namespace NamedLambda

theorem Term.length_add_depth_le {t s : Term} {path : Path} (h : t.subterm? path = some s) :
    path.length + s.depth ≤ t.depth := by
  induction path generalizing t with
  | nil =>
    obtain rfl : t = s := by simpa using h
    simp
  | cons d path ih =>
    rw [List.length_cons]
    cases t with
    | var y => simp [subterm?] at h
    | abs p body =>
      rcases d with _ | d
      · have := ih h
        simp only [depth]
        omega
      · simp [subterm?] at h
    | app func arg =>
      rcases d with _ | _ | d
      · have := ih h
        simp only [depth]
        omega
      · have := ih h
        simp only [depth]
        omega
      · simp [subterm?] at h

theorem Term.subterm?_abs_eq_var {p x : Name} {body : Term} {path : Path}
    (h : (abs p body).subterm? path = some (var x)) :
    ∃ rest, path = 0 :: rest ∧ body.subterm? rest = some (var x) := by
  rcases path with _ | ⟨_ | d, rest⟩
  · simp at h
  · exact ⟨rest, rfl, h⟩
  · simp [subterm?] at h

theorem Term.subterm?_app_eq_var {x : Name} {func arg : Term} {path : Path}
    (h : (app func arg).subterm? path = some (var x)) :
    ∃ d rest, path = d :: rest ∧
      (func.subterm? rest = some (var x) ∨ arg.subterm? rest = some (var x)) := by
  rcases path with _ | ⟨_ | _ | d, rest⟩
  · simp at h
  · exact ⟨0, rest, rfl, .inl h⟩
  · exact ⟨1, rest, rfl, .inr h⟩
  · simp [subterm?] at h

/-- From every state the draw succeeds, with an outcome that has the property. -/
def Draws {α : Type} (m : OptionT Draw α) (P : α → Prop) : Prop :=
  ∀ r : Random, ∃ a r', m.run.run r = (some a, r') ∧ P a

namespace Draws

variable {α β : Type} {P : α → Prop} {Q : β → Prop}

theorem pure {a : α} (h : P a) : Draws (pure a) P := fun r => ⟨a, r, rfl, h⟩

theorem bind {m : OptionT Draw α} {f : α → OptionT Draw β} (hm : Draws m P)
    (hf : ∀ a, P a → Draws (f a) Q) : Draws (m >>= f) Q := by
  intro r
  obtain ⟨a, r', hrun, ha⟩ := hm r
  obtain ⟨b, r'', hrun', hb⟩ := hf a ha r'
  refine ⟨b, r'', ?_, hb⟩
  simp only [OptionT.run_bind, Option.elimM, StateT.run_bind, hrun]
  exact hrun'

theorem mono {P' : α → Prop} {m : OptionT Draw α} (hm : Draws m P) (h : ∀ a, P a → P' a) :
    Draws m P' := by
  intro r
  obtain ⟨a, r', hrun, ha⟩ := hm r
  exact ⟨a, r', hrun, h a ha⟩

theorem range {low high : Nat} (h : low < high) :
    Draws (liftM (Random.range low high)) fun n => low ≤ n ∧ n < high :=
  fun r => ⟨_, _, rfl, Random.range_lt h r⟩

/-- There are names to pick from, so the index that is drawn is in range. -/
theorem drawFrom {names : List Name} (h : names ≠ []) :
    Draws (Limits.drawFrom names) (· ∈ names) := by
  intro r
  have hlt := Random.index_lt (List.length_pos_of_ne_nil h) r
  have hrun : (Limits.drawFrom names).run.run r =
      (names[((Random.index names.length).run r).1]?, ((Random.index names.length).run r).2) := rfl
  rw [List.getElem?_eq_getElem hlt] at hrun
  exact ⟨_, _, hrun, List.getElem_mem hlt⟩

theorem drawVariable {scope : List Name} (h : scope ≠ []) :
    Draws (Limits.drawVariable scope) fun x? => ∃ x ∈ scope, x? = some x := by
  rw [Limits.drawVariable, if_neg (by simpa using h), map_eq_pure_bind]
  exact (drawFrom h).bind fun x hx => pure ⟨x, hx, rfl⟩

theorem drawAbs {scope : List Name} {drawBody : Name → List Name → OptionT Draw Term}
    {P : Term → Prop}
    (h : ∀ p ∈ Limits.binders, Draws (drawBody p (scope ++ [p])) fun body => P (.abs p body)) :
    Draws (Limits.drawAbs scope drawBody) P :=
  (drawFrom (by decide)).bind fun p hp => (h p hp).bind fun _ hbody => pure hbody

end Draws

namespace Limits

/-- The least number of nodes from the root to a variable, both counted. -/
def leastDepth (limits : Limits) : Nat := min (limits.minDepth + 1) limits.maxDepth

/-- What may be drawn at a depth, in a scope, with room for so many levels below. -/
structure Fits (limits : Limits) (room depth : Nat) (scope : List Name) (t : Term) : Prop where
  free : ∀ x, t.occursFree x = true → x ∈ scope
  binders : ∀ p ∈ t.binders, p ∈ binders
  depth_le : t.depth ≤ room + 1
  leaf : ∀ path x, t.subterm? path = some (.var x) → limits.leastDepth ≤ depth + path.length + 1

namespace Fits

variable {limits : Limits} {room depth : Nat} {scope : List Name}

theorem var {x : Name} (hx : x ∈ scope) (hdepth : limits.leastDepth ≤ depth + 1) :
    limits.Fits room depth scope (.var x) where
  free y hy := by
    obtain rfl : y = x := by simpa [Term.occursFree] using hy
    exact hx
  binders p hp := by simp [Term.binders] at hp
  depth_le := by simp [Term.depth]
  leaf path y hy := by omega

theorem abs {p : Name} {body : Term} (hp : p ∈ Limits.binders)
    (h : limits.Fits room (depth + 1) (scope ++ [p]) body) :
    limits.Fits (room + 1) depth scope (.abs p body) where
  free x hx := by
    obtain ⟨hne, hbody⟩ : x ≠ p ∧ body.occursFree x = true := by simpa [Term.occursFree] using hx
    simpa [hne] using h.free x hbody
  binders := List.forall_mem_cons.2 ⟨hp, h.binders⟩
  depth_le := Nat.succ_le_succ h.depth_le
  leaf path x hx := by
    obtain ⟨rest, rfl, hbody⟩ := Term.subterm?_abs_eq_var hx
    have hleaf := h.leaf rest x hbody
    rw [List.length_cons]
    omega

theorem app {func arg : Term} (hf : limits.Fits room (depth + 1) scope func)
    (ha : limits.Fits room (depth + 1) scope arg) :
    limits.Fits (room + 1) depth scope (.app func arg) where
  free x hx := (Bool.or_eq_true_iff.1 hx).elim (hf.free x) (ha.free x)
  binders p hp := (List.mem_append.1 hp).elim (hf.binders p) (ha.binders p)
  depth_le := Nat.succ_le_succ (Nat.max_le.2 ⟨hf.depth_le, ha.depth_le⟩)
  leaf path x hx := by
    obtain ⟨d, rest, rfl, hside⟩ := Term.subterm?_app_eq_var hx
    have hleaf : limits.leastDepth ≤ depth + 1 + rest.length + 1 :=
      hside.elim (hf.leaf rest x) (ha.leaf rest x)
    rw [List.length_cons]
    omega

end Fits

/-- Where the room ends the scope must not be empty. -/
theorem draws_drawTerm (limits : Limits) {room depth : Nat} {scope : List Name}
    (hdepth : depth + room + 1 = limits.maxDepth) (hscope : room = 0 → scope ≠ []) :
    Draws (limits.drawTerm room depth scope) (limits.Fits room depth scope) := by
  have hmin := Nat.min_le_left (limits.minDepth + 1) limits.maxDepth
  have hmax := Nat.min_le_right (limits.minDepth + 1) limits.maxDepth
  induction room generalizing depth scope with
  | zero =>
    rw [drawTerm]
    refine (Draws.drawVariable (hscope rfl)).bind ?_
    rintro x? ⟨x, hx, rfl⟩
    exact .pure (.var hx (by unfold leastDepth; omega))
  | succ room ih =>
    have hbelow : depth + 1 + room + 1 = limits.maxDepth := by omega
    have drawsAbs : Draws (drawAbs scope fun _ => limits.drawTerm room (depth + 1))
        (limits.Fits (room + 1) depth scope) := by
      refine .drawAbs fun p hp => ?_
      exact (ih hbelow (by simp)).mono fun body hbody => .abs hp hbody
    rw [drawTerm]
    refine (Draws.range (by split <;> omega)).bind fun choice hchoice => ?_
    split
    · next hvar =>
      obtain ⟨hchosen, hne⟩ : choice ≤ 1 ∧ scope ≠ [] := by simpa using hvar
      have hdeep : limits.minDepth ≤ depth := by
        by_contra hless
        rw [if_pos (by omega)] at hchoice
        omega
      refine (Draws.drawVariable hne).bind ?_
      rintro x? ⟨x, hx, rfl⟩
      exact .pure (.var hx (by unfold leastDepth; omega))
    · split
      · exact drawsAbs
      · next hscope =>
        have hne : scope ≠ [] := by
          rintro rfl
          simp at hscope
        have draws := ih hbelow fun _ => hne
        exact draws.bind fun func hf => draws.bind fun arg ha => .pure (.app hf ha)

theorem draws_attempt {limits : Limits} (h : 2 ≤ limits.maxDepth) (attempts : Nat) :
    Draws (limits.attempt attempts) fun t? => ∀ t, t? = some t →
      t.size ≤ limits.maxSize ∧ limits.Fits (limits.maxDepth - 1) 0 [] t := by
  induction attempts with
  | zero => exact .pure (by simp)
  | succ attempts ih =>
    rw [attempt]
    refine (draws_drawTerm limits (by omega) (by omega)).bind fun t ht => ?_
    split
    · next hsize => exact .pure fun u hu => Option.some.inj hu ▸ ⟨hsize, ht⟩
    · exact ih

/-- No draw fails, so no index is out of range, and what is drawn keeps to the limits: it is
closed, has binders from the pool only, is not too large or too deep, and none of its variables is
too near to the root. -/
theorem draw_withinLimits {limits : Limits} (h : 2 ≤ limits.maxDepth) (r : Random) :
    ∃ t? r', (limits.attempt 100).run.run r = (some t?, r') ∧ limits.draw.run r = (t?, r') ∧
      ∀ t, t? = some t →
        t.freeVars = ∅ ∧ (∀ p ∈ t.binders, p ∈ binders) ∧ t.size ≤ limits.maxSize ∧
          t.depth ≤ limits.maxDepth ∧
          ∀ path x, t.subterm? path = some (.var x) →
            min (limits.minDepth + 1) limits.maxDepth ≤ path.length + 1 ∧
              path.length + 1 ≤ limits.maxDepth := by
  obtain ⟨t?, r', hrun, hdrawn⟩ := draws_attempt h 100 r
  have hdraw : limits.draw.run r = (t?, r') := by
    simp only [draw, StateT.run_bind, hrun]
    rfl
  refine ⟨t?, r', hrun, hdraw, fun t ht => ?_⟩
  obtain ⟨hsize, hfits⟩ := hdrawn t ht
  have hroom : limits.maxDepth - 1 + 1 = limits.maxDepth := by omega
  have hdepth : t.depth ≤ limits.maxDepth := hroom ▸ hfits.depth_le
  refine ⟨?_, hfits.binders, hsize, hdepth, fun path x hx => ⟨?_, ?_⟩⟩
  · refine OrderedSet.subset_empty.1 fun x hx => ?_
    have hscope := hfits.free x (Term.mem_freeVars.1 hx)
    simp at hscope
  · have hleaf := hfits.leaf path x hx
    rwa [Nat.zero_add] at hleaf
  · exact Nat.le_trans (Term.length_add_depth_le hx) hdepth

/-- The first attempt is too large, the second gives `λz. λx. z x`. -/
theorem draw_withinLimits_secondAttempt :
    let limits : Limits := ⟨4, 2, 5⟩
    let t : Term := .abs "z" (.abs "x" (.app (.var "z") (.var "x")))
    2 ≤ limits.maxDepth ∧ ((limits.attempt 100).run.run (.ofSeed 1)).1 = some (some t) ∧
      (limits.draw.run (.ofSeed 1)).1 = some t ∧ t.freeVars = ∅ ∧ "x" ∈ binders ∧
      t.size ≤ limits.maxSize ∧ t.depth ≤ limits.maxDepth ∧
      min (limits.minDepth + 1) limits.maxDepth ≤ [0, 0, 1].length + 1 ∧
      [0, 0, 1].length + 1 ≤ limits.maxDepth := by
  intro limits t
  obtain ⟨t?, r', hattempt, hdraw, hlimits⟩ := @draw_withinLimits limits (by decide) (.ofSeed 1)
  have hdrawn : (limits.draw.run (.ofSeed 1)).1 = some t := by decide
  obtain rfl : t? = some t := by rwa [hdraw] at hdrawn
  obtain ⟨hclosed, hbinders, hsize, hdepth, hleaf⟩ := hlimits t rfl
  refine ⟨by decide, ?_, hdrawn, hclosed, hbinders "x" (by decide), hsize, hdepth, ?_⟩
  · rw [hattempt]
  · exact hleaf [0, 0, 1] "x" rfl

end Limits

end NamedLambda
