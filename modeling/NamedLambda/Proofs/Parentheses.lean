/-!
# Texts with parentheses

In a balanced text every parenthesis that is opened is closed (`Balanced`). Where all spaces
are in parentheses (`Atom`), a space outside of them marks where such a text begins or ends:
there is only one way to take it off the end of a longer text (`Atom.append_space_inj`), or
off the beginning (`Atom.space_append_inj`).
-/

namespace NamedLambda

/-- A text cut at two places where one character stands: the places are the same, or one of
them is in what follows the other. -/
theorem append_cons_cases {c : Char} {p q cs ds : List Char} (h : p ++ c :: cs = q ++ c :: ds) :
    (p = q ∧ cs = ds) ∨ (∃ es, q = p ++ c :: es ∧ cs = es ++ c :: ds) ∨
      ∃ es, p = q ++ c :: es ∧ ds = es ++ c :: cs := by
  rcases List.append_eq_append_iff.1 h with ⟨es, rfl, hes⟩ | ⟨es, rfl, hes⟩
  · cases es with
    | nil => exact .inl (by simpa using hes)
    | cons e es =>
      obtain ⟨rfl, htail⟩ := List.cons.inj hes
      exact .inr (.inl ⟨es, rfl, htail⟩)
  · cases es with
    | nil => exact .inl (by simpa [eq_comm] using hes)
    | cons e es =>
      obtain ⟨rfl, htail⟩ := List.cons.inj hes
      exact .inr (.inr ⟨es, rfl, htail⟩)

/-- No parenthesis is closed that was not opened, and at the end all are closed. -/
structure Balanced (cs : List Char) : Prop where
  opened : ∀ p, p <+: cs → p.count ')' ≤ p.count '('
  closed : cs.count ')' = cs.count '('

namespace Balanced

variable {cs ds : List Char}

theorem of_not_mem (hopen : '(' ∉ cs) (hclose : ')' ∉ cs) : Balanced cs where
  opened p hp := by
    rw [List.count_eq_zero_of_not_mem fun h => hclose (hp.subset h)]
    exact Nat.zero_le _
  closed := by rw [List.count_eq_zero_of_not_mem hopen, List.count_eq_zero_of_not_mem hclose]

theorem append (h : Balanced cs) (h' : Balanced ds) : Balanced (cs ++ ds) where
  opened := by
    rintro p ⟨rest, hrest⟩
    rcases List.append_eq_append_iff.1 hrest with ⟨as, rfl, -⟩ | ⟨bs, rfl, rfl⟩
    · exact h.opened p (List.prefix_append p as)
    · have := h.closed
      have := h'.opened bs (List.prefix_append bs rest)
      simp only [List.count_append]
      omega
  closed := by simp only [List.count_append, h.closed, h'.closed]

theorem parentheses (h : Balanced cs) : Balanced ('(' :: (cs ++ [')'])) where
  opened := by
    rintro p ⟨rest, hrest⟩
    rcases p with _ | ⟨c, p⟩
    · exact Nat.le_refl 0
    · obtain ⟨rfl, htail⟩ := List.cons.inj hrest
      rcases List.append_eq_append_iff.1 htail with ⟨as, rfl, -⟩ | ⟨bs, rfl, hbs⟩
      · have := h.opened p (List.prefix_append p as)
        simp
        omega
      · have := h.closed
        have hlen : bs.count ')' ≤ 1 := by
          have := congrArg (List.count ')') hbs
          simp at this
          omega
        simp
        omega
  closed := by
    have := h.closed
    simp
    omega

end Balanced

/-- What can stand as an argument in a text: all spaces are in parentheses. -/
structure Atom (cs : List Char) : Prop extends Balanced cs where
  enclosed : ∀ p q, cs = p ++ ' ' :: q → p.count ')' < p.count '('

theorem Balanced.atom {cs : List Char} (h : Balanced cs) : Atom ('(' :: (cs ++ [')'])) where
  toBalanced := h.parentheses
  enclosed := by
    intro p q heq
    rcases p with _ | ⟨c, p⟩
    · cases heq
    · obtain ⟨rfl, htail⟩ := List.cons.inj heq
      rcases List.append_eq_append_iff.1 htail with ⟨as, rfl, has⟩ | ⟨bs, rfl, -⟩
      · rcases as with _ | ⟨c, as⟩
        · cases has
        · simp at has
      · have := h.opened p (List.prefix_append p bs)
        simp
        omega

namespace Atom

variable {cs ds p q : List Char}

theorem of_not_mem (hopen : '(' ∉ cs) (hclose : ')' ∉ cs) (hspace : ' ' ∉ cs) : Atom cs where
  toBalanced := .of_not_mem hopen hclose
  enclosed p q heq := absurd (by simp [heq]) hspace

/-- An argument that ended in the other one and a space would have that space in parentheses. -/
theorem ne_append_cons (h : Atom cs) (h' : Atom ds) : cs ≠ p ++ ' ' :: ds := by
  rintro rfl
  have := h.enclosed p ds rfl
  have := h'.closed
  have hclosed := h.closed
  simp at hclosed
  omega

/-- There is only one way to take an argument off the end of a text. -/
theorem append_space_inj (h : Atom cs) (h' : Atom ds) (heq : p ++ ' ' :: cs = q ++ ' ' :: ds) :
    p = q ∧ cs = ds := by
  rcases append_cons_cases heq with hsame | ⟨es, -, hes⟩ | ⟨es, -, hes⟩
  · exact hsame
  · exact absurd hes (h.ne_append_cons h')
  · exact absurd hes (h'.ne_append_cons h)

theorem ne_append_space (h : Atom cs) (hp : Balanced p) : cs ≠ p ++ ' ' :: q := fun heq =>
  Nat.ne_of_lt (h.enclosed p q heq) hp.closed

theorem space_append_inj (h : Atom cs) (h' : Atom ds) (heq : cs ++ ' ' :: p = ds ++ ' ' :: q) :
    cs = ds ∧ p = q := by
  rcases append_cons_cases heq with hsame | ⟨es, hes, -⟩ | ⟨es, hes, -⟩
  · exact hsame
  · exact absurd hes (h'.ne_append_space h.toBalanced)
  · exact absurd hes (h.ne_append_space h'.toBalanced)

end Atom

end NamedLambda
