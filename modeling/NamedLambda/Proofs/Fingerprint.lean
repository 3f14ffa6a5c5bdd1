import NamedLambda.Term.Nameless

/-!
# Fingerprints

Terms have equal fingerprints exactly if they are equal up to bound names
(`Term.alphaEquiv_iff_fingerprint_eq`). A fingerprint is read off the nameless form
(`Term.fingerprintIn_eq`), and that form can be read back from it, since every
node says where its part of the list ends (`Nameless.fingerprint_append_inj`).
-/

namespace NamedLambda

namespace Nameless

/-- The inputs of `Term.fingerprintIn`, from the nameless form alone. -/
def fingerprint : Nameless → List Term.HashInput
  | bound i => [.byte 0, .count (i + 1)]
  | free x => [.byte 1, .text x, .byte 255]
  | lam body => .byte 2 :: body.fingerprint
  | app func arg => .byte 3 :: (func.fingerprint ++ arg.fingerprint)

/-- The first byte tells the shapes apart, and no fingerprint goes on where
another one of its shape has ended. -/
theorem fingerprint_append_inj {t u : Nameless} {rest rest' : List Term.HashInput}
    (h : t.fingerprint ++ rest = u.fingerprint ++ rest') : t = u ∧ rest = rest' := by
  induction t generalizing u rest rest' with
  | bound i =>
    cases u with
    | bound j => simpa [fingerprint] using h
    | _ => simp [fingerprint] at h
  | free x =>
    cases u with
    | free y => simpa [fingerprint] using h
    | _ => simp [fingerprint] at h
  | lam t ih =>
    cases u with
    | lam u =>
      obtain ⟨rfl, hrest⟩ := ih (List.cons.inj h).2
      exact ⟨rfl, hrest⟩
    | _ => simp [fingerprint] at h
  | app f a ihf iha =>
    cases u with
    | app g b =>
      have hparts : f.fingerprint ++ (a.fingerprint ++ rest) =
          g.fingerprint ++ (b.fingerprint ++ rest') := by
        simpa [fingerprint] using h
      obtain ⟨rfl, harg⟩ := ihf hparts
      obtain ⟨rfl, hrest⟩ := iha harg
      exact ⟨rfl, hrest⟩
    | _ => simp [fingerprint] at h

theorem fingerprint_inj {t u : Nameless} : t.fingerprint = u.fingerprint ↔ t = u := by
  constructor
  · intro h
    exact (fingerprint_append_inj (congrArg (· ++ []) h)).1
  · rintro rfl
    rfl

end Nameless

namespace Term

theorem fingerprintIn_eq (scope : Scope) (t : Term) :
    t.fingerprintIn scope = (t.namelessIn scope).fingerprint := by
  induction t generalizing scope with
  | var x =>
    simp only [fingerprintIn, namelessIn]
    cases scope.index? x <;> rfl
  | abs p body ih => simp only [fingerprintIn, namelessIn, Nameless.fingerprint, ih]
  | app func arg ihf iha => simp only [fingerprintIn, namelessIn, Nameless.fingerprint, ihf, iha]

/-- Terms that are equal up to bound names feed a hash function alike, and no
others do. -/
theorem alphaEquiv_iff_fingerprint_eq (s t : Term) :
    s.alphaEquiv t = true ↔ s.fingerprint = t.fingerprint := by
  rw [alphaEquiv_iff, fingerprint, fingerprint, fingerprintIn_eq, fingerprintIn_eq,
    Nameless.fingerprint_inj]
  rfl

/-- The variable belongs to the nearer one of two binders of its name. -/
example : (lambda ["x", "x"] (var "x")).fingerprint = [.byte 2, .byte 2, .byte 0, .count 1] := by
  decide

end Term

end NamedLambda
