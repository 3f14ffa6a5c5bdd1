import NamedLambda.Term.Basic

/-!
# Where a name is free

A name is free in a term where one of its variables has no binder of that name above it
(`Term.FreeAt`). The test stops at the first such binder. The set is made in one walk over the
whole term, with all the binders above at hand, so what it finds is said for every scope
(`Term.mem_collectFree`). Both find the names that are free somewhere
(`Term.occursFree_iff_mem_freeVars`).
-/

namespace NamedLambda.Term

/-- The variable `x` is at the position, and no abstraction on the way there binds `x`. -/
def FreeAt (t : Term) (x : Name) (path : Path) : Prop :=
  t.subterm? path = some (var x) ∧ ∀ q body, q <+: path → t.subterm? q ≠ some (abs x body)

section

variable {x p : Name} {t body func arg : Term} {path : Path}

theorem freeAt_nil : t.FreeAt x [] ↔ t = var x := by
  constructor
  · rintro ⟨hvar, -⟩
    simpa using hvar
  · rintro rfl
    refine ⟨subterm?_nil _, fun q body hq => ?_⟩
    rw [List.prefix_nil.1 hq, subterm?_nil]
    simp

theorem freeAt_cons {d : Nat} :
    t.FreeAt x (d :: path) ↔ (∀ body, t ≠ abs x body) ∧
      t.subterm? (d :: path) = some (var x) ∧
        ∀ q body, q <+: path → t.subterm? (d :: q) ≠ some (abs x body) := by
  constructor
  · rintro ⟨hvar, hway⟩
    refine ⟨fun body ht => ?_, hvar, fun q body hq => ?_⟩
    · exact hway [] body List.nil_prefix (by rw [subterm?_nil, ht])
    · exact hway (d :: q) body (List.cons_prefix_cons.2 ⟨rfl, hq⟩)
  · rintro ⟨hroot, hvar, hbelow⟩
    refine ⟨hvar, fun q body hq => ?_⟩
    cases q with
    | nil => simpa using hroot body
    | cons e q =>
      obtain ⟨rfl, hrest⟩ := List.cons_prefix_cons.1 hq
      exact hbelow q body hrest

theorem freeAt_abs : (abs p body).FreeAt x (0 :: path) ↔ x ≠ p ∧ body.FreeAt x path := by
  rw [freeAt_cons]
  refine and_congr ?_ Iff.rfl
  simp [eq_comm]

theorem freeAt_func : (app func arg).FreeAt x (0 :: path) ↔ func.FreeAt x path := by
  rw [freeAt_cons]
  exact and_iff_right fun _ h => by cases h

theorem freeAt_arg : (app func arg).FreeAt x (1 :: path) ↔ arg.FreeAt x path := by
  rw [freeAt_cons]
  exact and_iff_right fun _ h => by cases h

theorem FreeAt.occursFree (h : t.FreeAt x path) : t.occursFree x = true := by
  induction t generalizing path with
  | var y =>
    rcases path with _ | ⟨d, path⟩
    · simpa [Term.occursFree, eq_comm] using freeAt_nil.1 h
    · simp [FreeAt, subterm?] at h
  | abs p body ih =>
    rcases path with _ | ⟨_ | d, path⟩
    · cases freeAt_nil.1 h
    · obtain ⟨hne, hbody⟩ := freeAt_abs.1 h
      simp [Term.occursFree, hne, ih hbody]
    · simp [FreeAt, subterm?] at h
  | app func arg ihf iha =>
    rcases path with _ | ⟨_ | _ | d, path⟩
    · cases freeAt_nil.1 h
    · simp [Term.occursFree, ihf (freeAt_func.1 h)]
    · simp [Term.occursFree, iha (freeAt_arg.1 h)]
    · simp [FreeAt, subterm?] at h

theorem exists_freeAt (h : t.occursFree x = true) : ∃ path, t.FreeAt x path := by
  induction t with
  | var y =>
    obtain rfl : x = y := by simpa [occursFree] using h
    exact ⟨[], freeAt_nil.2 rfl⟩
  | abs p body ih =>
    obtain ⟨hne, hbody⟩ : x ≠ p ∧ body.occursFree x = true := by simpa [occursFree] using h
    obtain ⟨path, hpath⟩ := ih hbody
    exact ⟨0 :: path, freeAt_abs.2 ⟨hne, hpath⟩⟩
  | app func arg ihf iha =>
    obtain hfunc | harg : func.occursFree x = true ∨ arg.occursFree x = true := by
      simpa [occursFree] using h
    · obtain ⟨path, hpath⟩ := ihf hfunc
      exact ⟨0 :: path, freeAt_func.2 hpath⟩
    · obtain ⟨path, hpath⟩ := iha harg
      exact ⟨1 :: path, freeAt_arg.2 hpath⟩

end

/-- The test holds of a name exactly if the name is in the set, and that is so exactly if one of
its variables has no binder of that name above it. The walk that makes the set may begin below
any binders, with some of them alike or not, and with any names found before: it adds the names
that the test holds of, but for those bound around. -/
theorem occursFree_iff_mem_freeVars (t : Term) (x : Name) :
    (t.occursFree x = true ↔ x ∈ t.freeVars) ∧
    (x ∈ t.freeVars ↔ ∃ path, t.FreeAt x path) ∧
    ∀ (scope : Scope) (found : OrderedSet Name),
      x ∈ t.collectFree scope found ↔ x ∈ found ∨ x ∉ scope ∧ t.occursFree x = true := by
  refine ⟨mem_freeVars.symm, ?_, fun scope found => mem_collectFree⟩
  rw [mem_freeVars]
  constructor
  · exact exists_freeAt
  · rintro ⟨path, hpath⟩
    exact hpath.occursFree

/-- In `λx. λx. x (y (λy. y))`, the name `y` is bound and free, and `x` is bound twice. -/
example :
    (abs "x" (abs "x" (app (var "x") (app (var "y") (abs "y" (var "y")))))).freeVars.elems =
      ["y"] := by
  decide

end NamedLambda.Term
