/-!
# Finite sets kept in increasing order

A set holds its members as a strictly increasing list, so equal sets are equal
values and the members come out sorted. Free names of terms and free variables
of types are such sets. Each operation is pinned by its membership lemma, and
`OrderedSet.ext` turns membership into equality.
-/

namespace NamedLambda

structure OrderedSet (α : Type) [LT α] where
  elems : List α
  increasing : elems.Pairwise (· < ·)
deriving DecidableEq

namespace OrderedSet

variable {α : Type}

theorem length_le_of_subset [DecidableEq α] {l m : List α} (hl : l.Nodup)
    (h : ∀ a ∈ l, a ∈ m) : l.length ≤ m.length := by
  induction l generalizing m with
  | nil => exact Nat.zero_le _
  | cons a l ih =>
    have ha := List.nodup_cons.1 hl
    have ham : a ∈ m := h a (by simp)
    have := ih (m := m.erase a) ha.2 fun x hx =>
      (List.mem_erase_of_ne (by rintro rfl; exact ha.1 hx)).2 (h x (by simp [hx]))
    rw [List.length_erase_of_mem ham] at this
    have := List.length_pos_of_mem ham
    simp only [List.length_cons]
    omega

variable [LT α]

instance : Membership α (OrderedSet α) := ⟨fun s a => a ∈ s.elems⟩

theorem mem_def {s : OrderedSet α} {a : α} : a ∈ s ↔ a ∈ s.elems := Iff.rfl

instance [DecidableEq α] (s : OrderedSet α) (a : α) : Decidable (a ∈ s) :=
  inferInstanceAs (Decidable (a ∈ s.elems))

def empty : OrderedSet α := ⟨[], .nil⟩

instance : EmptyCollection (OrderedSet α) := ⟨empty⟩

instance : Inhabited (OrderedSet α) := ⟨empty⟩

@[simp] theorem not_mem_empty (a : α) : a ∉ (∅ : OrderedSet α) := List.not_mem_nil

instance : HasSubset (OrderedSet α) := ⟨fun s t => ∀ a ∈ s, a ∈ t⟩

theorem subset_refl (s : OrderedSet α) : s ⊆ s := fun _ ha => ha

theorem subset_trans {s t u : OrderedSet α} (h : s ⊆ t) (h' : t ⊆ u) : s ⊆ u :=
  fun a ha => h' a (h a ha)

def singleton (a : α) : OrderedSet α := ⟨[a], by simp⟩

@[simp] theorem mem_singleton {a b : α} : a ∈ singleton b ↔ a = b := List.mem_singleton

def size (s : OrderedSet α) : Nat := s.elems.length

def filter (p : α → Bool) (s : OrderedSet α) : OrderedSet α :=
  ⟨s.elems.filter p, s.increasing.filter p⟩

@[simp] theorem mem_filter {p : α → Bool} {s : OrderedSet α} {a : α} :
    a ∈ s.filter p ↔ a ∈ s ∧ p a = true := List.mem_filter

def erase [DecidableEq α] (s : OrderedSet α) (a : α) : OrderedSet α :=
  s.filter (· ≠ a)

@[simp] theorem mem_erase [DecidableEq α] {s : OrderedSet α} {a b : α} :
    a ∈ s.erase b ↔ a ∈ s ∧ a ≠ b := by simp [erase]

theorem nodup_elems [Std.Irrefl (fun a b : α => a < b)] (s : OrderedSet α) : s.elems.Nodup :=
  List.Pairwise.imp (by rintro a b h rfl; exact Std.lt_irrefl h) s.increasing

theorem size_le_of_subset [DecidableEq α] [Std.Irrefl (fun a b : α => a < b)]
    {s t : OrderedSet α} (h : ∀ a ∈ s, a ∈ t) : s.size ≤ t.size :=
  length_le_of_subset s.nodup_elems h

theorem size_lt_of_subset_of_not_mem [DecidableEq α] [Std.Irrefl (fun a b : α => a < b)]
    {s t : OrderedSet α} {b : α} (h : ∀ a ∈ s, a ∈ t) (hb : b ∈ t) (hbs : b ∉ s) : s.size < t.size := by
  have hlen := length_le_of_subset (m := t.elems.erase b) s.nodup_elems fun a ha =>
    (List.mem_erase_of_ne (by rintro rfl; exact hbs ha)).2 (h a ha)
  rw [List.length_erase_of_mem hb] at hlen
  have := List.length_pos_of_mem hb
  simp only [size]
  omega

variable [LE α] [Std.IsLinearOrder α] [Std.LawfulOrderLT α]

theorem eq_of_mem_iff {l m : List α} (hl : l.Pairwise (· < ·)) (hm : m.Pairwise (· < ·))
    (h : ∀ a, a ∈ l ↔ a ∈ m) : l = m := by
  induction l generalizing m with
  | nil => cases m with
    | nil => rfl
    | cons b m => exact absurd ((h b).2 (by simp)) (by simp)
  | cons a l ih =>
    cases m with
    | nil => exact absurd ((h a).1 (by simp)) (by simp)
    | cons b m =>
      have ha := List.pairwise_cons.1 hl
      have hb := List.pairwise_cons.1 hm
      have hab : a = b := by
        rcases List.mem_cons.1 ((h a).1 (by simp)) with e | hbm
        · exact e
        rcases List.mem_cons.1 ((h b).2 (by simp)) with e | hal
        · exact e.symm
        exact absurd (Std.lt_trans (hb.1 a hbm) (ha.1 b hal)) Std.lt_irrefl
      subst hab
      refine congrArg _ (ih ha.2 hb.2 fun x => ⟨fun hx => ?_, fun hx => ?_⟩)
      · rcases List.mem_cons.1 ((h x).1 (List.mem_cons_of_mem _ hx)) with rfl | hxm
        · exact absurd (ha.1 x hx) Std.lt_irrefl
        · exact hxm
      · rcases List.mem_cons.1 ((h x).2 (List.mem_cons_of_mem _ hx)) with rfl | hxl
        · exact absurd (hb.1 x hx) Std.lt_irrefl
        · exact hxl

theorem ext {s t : OrderedSet α} (h : ∀ a, a ∈ s ↔ a ∈ t) : s = t := by
  cases s; cases t
  simpa using eq_of_mem_iff ‹_› ‹_› h

theorem subset_empty {s : OrderedSet α} : s ⊆ ∅ ↔ s = ∅ := by
  constructor
  · intro h
    exact ext fun a => ⟨h a, fun ha => absurd ha (not_mem_empty a)⟩
  · rintro rfl
    exact subset_refl ∅

variable [DecidableLT α]

/-- A member equal to `a` is replaced, not doubled. -/
def insertElem (a : α) : List α → List α
  | [] => [a]
  | b :: rest =>
    if a < b then a :: b :: rest
    else if b < a then b :: insertElem a rest
    else a :: rest

theorem mem_insertElem {a b : α} {l : List α} :
    b ∈ insertElem a l ↔ b = a ∨ b ∈ l := by
  induction l with
  | nil => simp [insertElem]
  | cons c rest ih =>
    rw [insertElem]
    split
    · simp
    · split
      · simp only [List.mem_cons, ih]
        exact or_left_comm
      · rename_i hac hca
        have : a = c := (Std.lt_trichotomy a c).resolve_left hac |>.resolve_right hca
        simp [this]

theorem pairwise_insertElem {a : α} {l : List α} (h : l.Pairwise (· < ·)) :
    (insertElem a l).Pairwise (· < ·) := by
  induction l with
  | nil => simp [insertElem]
  | cons c rest ih =>
    have hc := List.pairwise_cons.1 h
    rw [insertElem]
    split
    · rename_i hac
      refine List.pairwise_cons.2 ⟨fun x hx => ?_, h⟩
      rcases List.mem_cons.1 hx with rfl | hx
      · exact hac
      · exact Std.lt_trans hac (hc.1 x hx)
    · split
      · rename_i hca
        refine List.pairwise_cons.2 ⟨fun x hx => ?_, ih hc.2⟩
        rcases mem_insertElem.1 hx with rfl | hx
        · exact hca
        · exact hc.1 x hx
      · rename_i hac hca
        have : a = c := (Std.lt_trichotomy a c).resolve_left hac |>.resolve_right hca
        exact this ▸ h

def insert (a : α) (s : OrderedSet α) : OrderedSet α :=
  ⟨insertElem a s.elems, pairwise_insertElem s.increasing⟩

@[simp] theorem mem_insert {a b : α} {s : OrderedSet α} :
    b ∈ s.insert a ↔ b = a ∨ b ∈ s := mem_insertElem

def ofList (l : List α) : OrderedSet α := l.foldr insert ∅

@[simp] theorem mem_ofList {a : α} {l : List α} : a ∈ ofList l ↔ a ∈ l := by
  induction l with
  | nil => exact iff_of_false (not_mem_empty a) List.not_mem_nil
  | cons b rest ih => simpa [ofList] using or_congr_right ih

def union (s t : OrderedSet α) : OrderedSet α := s.elems.foldr insert t

instance : Union (OrderedSet α) := ⟨union⟩

@[simp] theorem mem_union {s t : OrderedSet α} {a : α} : a ∈ s ∪ t ↔ a ∈ s ∨ a ∈ t := by
  show a ∈ s.elems.foldr insert t ↔ a ∈ s.elems ∨ a ∈ t
  induction s.elems with
  | nil => simp
  | cons b rest ih => simp [ih, or_assoc]

end OrderedSet

end NamedLambda
