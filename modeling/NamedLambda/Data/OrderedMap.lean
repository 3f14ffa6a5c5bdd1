/-!
# Finite maps kept in key order

A map holds its entries with strictly increasing keys, so equal maps are equal
values and the entries come out sorted by key. Type substitutions and typing
environments are such maps. Every operation is described by what it does to
`get?`, and `OrderedMap.ext` turns equal lookups into equality.
-/

namespace NamedLambda

structure OrderedMap (κ β : Type) [LT κ] where
  entries : List (κ × β)
  increasing : entries.Pairwise (fun a b => a.1 < b.1)
deriving DecidableEq

namespace OrderedMap

variable {κ β γ : Type}

section Entries

variable [DecidableEq κ]

def find (k : κ) : List (κ × β) → Option β
  | [] => none
  | (k', v) :: rest => if k = k' then some v else find k rest

theorem find_eq_none_of_forall_ne {k : κ} {l : List (κ × β)} (h : ∀ e ∈ l, k ≠ e.1) :
    find k l = none := by
  induction l with
  | nil => rfl
  | cons e rest ih =>
    rw [find, if_neg (h e (by simp))]
    exact ih fun e' he' => h e' (List.mem_cons_of_mem _ he')

theorem mem_of_find_eq_some {k : κ} {v : β} {l : List (κ × β)} (h : find k l = some v) :
    (k, v) ∈ l := by
  induction l with
  | nil => simp [find] at h
  | cons e rest ih =>
    rw [find] at h
    split at h
    · rename_i hk
      obtain rfl := Option.some.inj h
      simp [hk]
    · exact List.mem_cons_of_mem _ (ih h)

end Entries

variable [LT κ]

def insertEntry [DecidableLT κ] (k : κ) (v : β) : List (κ × β) → List (κ × β)
  | [] => [(k, v)]
  | e :: rest =>
    if k < e.1 then (k, v) :: e :: rest
    else if e.1 < k then e :: insertEntry k v rest
    else (k, v) :: rest

theorem mem_insertEntry [DecidableLT κ] {k : κ} {v : β} {l : List (κ × β)} {e : κ × β}
    (h : e ∈ insertEntry k v l) : e = (k, v) ∨ e ∈ l := by
  induction l with
  | nil => simpa [insertEntry] using h
  | cons f rest ih =>
    rw [insertEntry] at h
    split at h
    · simpa using h
    · split at h
      · rcases List.mem_cons.1 h with rfl | h
        · simp
        · exact (ih h).imp_right (List.mem_cons_of_mem _)
      · exact (List.mem_cons.1 h).imp_right (List.mem_cons_of_mem _)

def empty : OrderedMap κ β := ⟨[], .nil⟩

instance : EmptyCollection (OrderedMap κ β) := ⟨empty⟩

instance : Inhabited (OrderedMap κ β) := ⟨empty⟩

def singleton (k : κ) (v : β) : OrderedMap κ β := ⟨[(k, v)], by simp⟩

def size (m : OrderedMap κ β) : Nat := m.entries.length

def isEmpty (m : OrderedMap κ β) : Bool := m.entries.isEmpty

def keys (m : OrderedMap κ β) : List κ := m.entries.map (·.1)

def values (m : OrderedMap κ β) : List β := m.entries.map (·.2)

def mapValues (f : β → γ) (m : OrderedMap κ β) : OrderedMap κ γ :=
  ⟨m.entries.map fun e => (e.1, f e.2), m.increasing.map _ fun _ _ h => h⟩

def filterKeys (p : κ → Bool) (m : OrderedMap κ β) : OrderedMap κ β :=
  ⟨m.entries.filter fun e => p e.1, m.increasing.filter _⟩

variable [DecidableEq κ]

def get? (m : OrderedMap κ β) (k : κ) : Option β := find k m.entries

@[simp] theorem get?_empty (k : κ) : (∅ : OrderedMap κ β).get? k = none := rfl

@[simp] theorem get?_singleton (k k' : κ) (v : β) :
    (singleton k v).get? k' = if k' = k then some v else none := rfl

@[simp] theorem get?_mapValues (f : β → γ) (m : OrderedMap κ β) (k : κ) :
    (m.mapValues f).get? k = (m.get? k).map f := by
  obtain ⟨l, hl⟩ := m
  simp only [get?, mapValues]
  clear hl
  induction l with
  | nil => rfl
  | cons e rest ih =>
    simp only [List.map_cons, find]
    split
    · rfl
    · exact ih

@[simp] theorem get?_filterKeys (p : κ → Bool) (m : OrderedMap κ β) (k : κ) :
    (m.filterKeys p).get? k = if p k then m.get? k else none := by
  obtain ⟨l, hl⟩ := m
  simp only [get?, filterKeys]
  clear hl
  induction l with
  | nil => simp [find]
  | cons e rest ih =>
    by_cases he : p e.1 = true
    · by_cases hk : k = e.1
      · simp [he, hk, find]
      · simp [he, hk, find, ih]
    · by_cases hk : k = e.1
      · simp [he, hk ▸ he, ih]
      · simp [he, hk, find, ih]

theorem find_eq_some_of_mem [Std.Irrefl (fun a b : κ => a < b)] {k : κ} {v : β} {l : List (κ × β)}
    (hl : l.Pairwise (fun a b => a.1 < b.1)) (h : (k, v) ∈ l) : find k l = some v := by
  induction l with
  | nil => simp at h
  | cons e rest ih =>
    have he := List.pairwise_cons.1 hl
    rcases List.mem_cons.1 h with rfl | h
    · simp [find]
    · have : k ≠ e.1 := by
        rintro rfl
        exact absurd (he.1 _ h) Std.lt_irrefl
      rw [find, if_neg this]
      exact ih he.2 h

theorem get?_eq_some_iff [Std.Irrefl (fun a b : κ => a < b)] {m : OrderedMap κ β} {k : κ} {v : β} :
    m.get? k = some v ↔ (k, v) ∈ m.entries :=
  ⟨mem_of_find_eq_some, find_eq_some_of_mem m.increasing⟩

theorem mem_values [Std.Irrefl (fun a b : κ => a < b)] {m : OrderedMap κ β} {v : β} :
    v ∈ m.values ↔ ∃ k, m.get? k = some v := by
  simp [values, get?_eq_some_iff]

variable [LE κ] [Std.IsLinearOrder κ] [Std.LawfulOrderLT κ]

/-- Entries with increasing keys are determined by the lookups. -/
theorem eq_of_find_eq {l m : List (κ × β)} (hl : l.Pairwise (fun a b => a.1 < b.1))
    (hm : m.Pairwise (fun a b => a.1 < b.1)) (h : ∀ k, find k l = find k m) : l = m := by
  induction l generalizing m with
  | nil => cases m with
    | nil => rfl
    | cons e m => exact absurd (h e.1) (by simp [find])
  | cons e l ih =>
    cases m with
    | nil => exact absurd (h e.1) (by simp [find])
    | cons f m =>
      have he := List.pairwise_cons.1 hl
      have hf := List.pairwise_cons.1 hm
      have hkey : e.1 = f.1 := by
        have hem : (e.1, e.2) ∈ f :: m :=
          mem_of_find_eq_some ((h e.1).symm.trans (by simp [find]))
        have hfl : (f.1, f.2) ∈ e :: l :=
          mem_of_find_eq_some ((h f.1).trans (by simp [find]))
        rcases List.mem_cons.1 hem with he' | hem
        · exact congrArg (·.1) he'
        rcases List.mem_cons.1 hfl with hf' | hfl
        · exact (congrArg (·.1) hf').symm
        exact absurd (Std.lt_trans (hf.1 _ hem) (he.1 _ hfl)) Std.lt_irrefl
      have hval : e.2 = f.2 := by
        have := h e.1
        simpa [find, hkey] using this
      obtain rfl : e = f := Prod.ext hkey hval
      refine congrArg _ (ih he.2 hf.2 fun k => ?_)
      by_cases hk : k = e.1
      · subst hk
        have none_of {r : List (κ × β)} (hr : ∀ a ∈ r, e.1 < a.1) : find e.1 r = none :=
          find_eq_none_of_forall_ne fun a ha heq => Std.lt_irrefl (heq ▸ hr a ha)
        rw [none_of he.1, none_of hf.1]
      · simpa [find, hk] using h k

theorem ext {m n : OrderedMap κ β} (h : ∀ k, m.get? k = n.get? k) : m = n := by
  cases m; cases n
  simpa using eq_of_find_eq ‹_› ‹_› h

variable [DecidableLT κ]

omit [DecidableEq κ] in
theorem pairwise_insertEntry {k : κ} {v : β} {l : List (κ × β)}
    (h : l.Pairwise (fun a b => a.1 < b.1)) :
    (insertEntry k v l).Pairwise (fun a b => a.1 < b.1) := by
  induction l with
  | nil => simp [insertEntry]
  | cons f rest ih =>
    have hf := List.pairwise_cons.1 h
    rw [insertEntry]
    split
    · rename_i hk
      refine List.pairwise_cons.2 ⟨fun x hx => ?_, h⟩
      rcases List.mem_cons.1 hx with rfl | hx
      · exact hk
      · exact Std.lt_trans hk (hf.1 x hx)
    · split
      · rename_i hk
        refine List.pairwise_cons.2 ⟨fun x hx => ?_, ih hf.2⟩
        rcases mem_insertEntry hx with rfl | hx
        · exact hk
        · exact hf.1 x hx
      · rename_i hkf hfk
        have : k = f.1 := (Std.lt_trichotomy k f.1).resolve_left hkf |>.resolve_right hfk
        exact List.pairwise_cons.2 ⟨fun x hx => this ▸ hf.1 x hx, hf.2⟩

/-- A later binding of a key replaces the earlier one. -/
def insert (k : κ) (v : β) (m : OrderedMap κ β) : OrderedMap κ β :=
  ⟨insertEntry k v m.entries, pairwise_insertEntry m.increasing⟩

@[simp] theorem get?_insert (k k' : κ) (v : β) (m : OrderedMap κ β) :
    (m.insert k v).get? k' = if k' = k then some v else m.get? k' := by
  obtain ⟨l, hl⟩ := m
  simp only [get?, insert]
  clear hl
  induction l with
  | nil => rfl
  | cons e rest ih =>
    rw [insertEntry]
    split
    · rfl
    · split
      · rename_i hk
        have hne : e.1 ≠ k := fun heq => Std.lt_irrefl (heq ▸ hk)
        simp only [find, ih]
        by_cases hk' : k' = e.1
        · simp [hk', hne]
        · simp [hk']
      · rename_i hke hek
        have : k = e.1 := (Std.lt_trichotomy k e.1).resolve_left hke |>.resolve_right hek
        by_cases hk' : k' = k <;> simp [find, hk', this ▸ hk']

/-- Of two pairs with one key the later counts. -/
def ofList (l : List (κ × β)) : OrderedMap κ β :=
  l.foldl (fun m e => m.insert e.1 e.2) ∅

theorem get?_ofList_cases (l : List (κ × β)) (k : κ) :
    ((ofList l).get? k = none ∧ ∀ e ∈ l, e.1 ≠ k) ∨
      ∃ v, (k, v) ∈ l ∧ (ofList l).get? k = some v := by
  have aux (m : OrderedMap κ β) :
      ((l.foldl (fun m e => m.insert e.1 e.2) m).get? k = m.get? k ∧ ∀ e ∈ l, e.1 ≠ k) ∨
        ∃ v, (k, v) ∈ l ∧ (l.foldl (fun m e => m.insert e.1 e.2) m).get? k = some v := by
    induction l generalizing m with
    | nil => simp
    | cons e rest ih =>
      rcases ih (m.insert e.1 e.2) with ⟨hget, hne⟩ | ⟨v, hv, hget⟩
      · by_cases hk : k = e.1
        · refine .inr ⟨e.2, by simp [hk], ?_⟩
          rw [List.foldl_cons, hget, get?_insert, if_pos hk]
        · refine .inl ⟨by simp [hget, hk], fun f hf => ?_⟩
          rcases List.mem_cons.1 hf with rfl | hf
          · exact Ne.symm hk
          · exact hne f hf
      · exact .inr ⟨v, List.mem_cons_of_mem _ hv, hget⟩
  simpa [ofList] using aux ∅

/-- The entries of `m`, and those of `n` under keys that `m` lacks. -/
def union (m n : OrderedMap κ β) : OrderedMap κ β :=
  m.entries.foldr (fun e acc => acc.insert e.1 e.2) n

@[simp] theorem get?_union (m n : OrderedMap κ β) (k : κ) :
    (m.union n).get? k = (m.get? k).or (n.get? k) := by
  obtain ⟨l, hl⟩ := m
  simp only [get?, union]
  clear hl
  induction l with
  | nil => rfl
  | cons e rest ih =>
    have := get?_insert e.1 k e.2 (rest.foldr (fun e acc => acc.insert e.1 e.2) n)
    simp only [get?] at this
    simp only [List.foldr_cons, this, ih, find]
    split <;> rfl

end OrderedMap

end NamedLambda
