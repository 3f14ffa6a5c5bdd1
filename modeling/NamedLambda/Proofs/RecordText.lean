import Mathlib
import NamedLambda.Record
import NamedLambda.Proofs.ObjectText

/-!
# Records come back from their texts

Nothing is known of a codec but what is assumed of it. There are four assumptions: the writer puts
the fields of an object in their order and no space between them, the reader takes the texts of
the strict grammar, cases go by their names in kebab case, and a field whose key is missing gets
its default. None of them speaks of a record that is written and read again. From all four a record
comes back from its text (`RecordCodec.decode?_write`), and the codec of the program is shown
to satisfy each.
-/

namespace NamedLambda

open Json (Plain Whole ObjectText MemberText MembersText ScalarText)

inductive FieldType.Has : FieldType → FieldValue → Prop
  | count {n : Nat} : n < UInt64.size → Has .count (.count n)
  | flag (b : Bool) : Has .flag (.flag b)
  | choice {cases : List String} {c : String} : c ∈ cases → Has (.choice cases) (.choice c)

def Letters (text : String) : Prop := ∀ c ∈ text.toList, c.isAlpha = true

/-- The names of the cases tell them apart. -/
structure DeclaredCases (cases : List String) : Prop where
  letters : ∀ c ∈ cases, Letters c
  nodup : (cases.map kebabCase).Nodup

structure Declared (fields : List Field) : Prop where
  plain : ∀ f ∈ fields, Plain f.name
  nodup : (fields.map Field.name).Nodup
  default : ∀ f ∈ fields, f.type.Has f.default
  cases : ∀ f ∈ fields, ∀ cases, f.type = .choice cases → DeclaredCases cases

namespace RecordCodec

variable (codec : RecordCodec)

def document : FieldValue → Json
  | .count n => .number (toString n)
  | .flag b => .bool b
  | .choice c => codec.encodeCase c

def members (fields : List Field) (values : List FieldValue) : List (String × Json) :=
  fields.zipWith (fun f v => (f.name, codec.document v)) values

/-- Output is compact, and the fields of a record stand in the order of their declaration. -/
structure WritesCompactly : Prop where
  bool (b : Bool) : codec.write (.bool b) = toString b
  count {n : Nat} : n < UInt64.size → codec.write (.number (toString n)) = toString n
  string {written : String} : Plain written →
    codec.write (.string written) = "\"" ++ written ++ "\""
  object {ms : List (String × Json)} : (∀ m ∈ ms, Plain m.1) → codec.write (.object ms) =
    "\x7b" ++ ",".intercalate (ms.map fun m => "\"" ++ m.1 ++ "\":" ++ codec.write m.2) ++ "\x7d"
  record {fields : List Field} {values : List FieldValue} : Declared fields →
    List.Forall₂ (·.type.Has ·) fields values →
    codec.encode fields values = .object (codec.members fields values)

/-- Input that the strict grammar derives is read as the object it stands for. -/
def ReadsStrictJson : Prop :=
  ∀ {ms : List (String × Json)} {text : String}, ObjectText ms text.toList →
    codec.read? text = some (.object ms)

structure NamesInKebabCase : Prop where
  encodeCase {c : String} : Letters c → codec.encodeCase c = .string (kebabCase c)
  decodeCase? {cases : List String} {name : String} : DeclaredCases cases → Plain name →
    codec.decodeCase? cases (.string name) = cases.find? (kebabCase · = name)

/-- A field with one of the members of an object takes its value from the member, another field
takes its default. -/
inductive Takes (ms : List (String × Json)) : Field → FieldValue → Prop
  | missing {f : Field} : f.name ∉ ms.map Prod.fst → Takes ms f f.default
  | count {name written : String} {d : FieldValue} : (name, .number written) ∈ ms →
      Whole written → Nat.ofDigitChars 10 written.toList 0 < UInt64.size →
      Takes ms ⟨name, .count, d⟩ (.count (Nat.ofDigitChars 10 written.toList 0))
  | flag {name : String} {d : FieldValue} {b : Bool} : (name, .bool b) ∈ ms →
      Takes ms ⟨name, .flag, d⟩ (.flag b)
  | choice {name c : String} {cases : List String} {d : FieldValue} {j : Json} : (name, j) ∈ ms →
      codec.decodeCase? cases j = some c → Takes ms ⟨name, .choice cases, d⟩ (.choice c)

def FillsDefaults : Prop :=
  ∀ {fields : List Field} {values : List FieldValue} {ms : List (String × Json)},
    Declared fields → (∀ m ∈ ms, Plain m.1) → (ms.map Prod.fst).Nodup →
    List.Forall₂ (codec.Takes ms) fields values → codec.decode? fields (.object ms) = some values

end RecordCodec

section Cases

variable {c : String} {cases : List String}

theorem plainChar_of_isAlpha {d : Char} (h : d.isAlpha = true) :
    d ≠ '"' ∧ d ≠ '\\' ∧ 32 ≤ d.toNat := by
  have other (e : Char) (he : e.isAlpha = false) : d ≠ e := by
    rintro rfl
    simp [h] at he
  have control : ∀ n < 32, (Char.ofNat n).isAlpha = false := by decide
  refine ⟨other '"' rfl, other '\\' rfl, ?_⟩
  by_contra small
  have := control d.toNat (Nat.lt_of_not_le small)
  rw [Char.ofNat_toNat, h] at this
  contradiction

theorem Letters.plain_kebabCase (h : Letters c) : Plain (kebabCase c) := by
  unfold Letters at h
  unfold kebabCase
  generalize c.toList = ds at h
  cases ds with
  | nil => simp [Plain]
  | cons d ds =>
    obtain ⟨hd, hds⟩ := List.forall_mem_cons.1 h
    have small {e : Char} (he : e.isAlpha = true) := plainChar_of_isAlpha
      ((Char.isAlpha_toLower_eq_isAlpha e).trans he)
    intro e he
    rw [String.toList_ofList, List.mem_cons, List.mem_flatMap] at he
    rcases he with rfl | ⟨e', hmem, he⟩
    · exact small hd
    · split at he
      · rcases List.mem_pair.1 he with rfl | rfl
        · decide
        · exact small (hds e' hmem)
      · rw [List.mem_singleton.1 he]
        exact plainChar_of_isAlpha (hds e' hmem)

theorem DeclaredCases.find?_eq (h : DeclaredCases cases) (hc : c ∈ cases) :
    cases.find? (kebabCase · = kebabCase c) = some c := by
  obtain ⟨d, hd⟩ : ∃ d, cases.find? (kebabCase · = kebabCase c) = some d :=
    Option.isSome_iff_exists.1 (List.find?_isSome.2 ⟨c, hc, by simp⟩)
  have same : kebabCase d = kebabCase c := by simpa using List.find?_some hd
  rw [hd, List.inj_on_of_nodup_map h.nodup (List.mem_of_find?_eq_some hd) hc same]

end Cases

namespace RecordCodec

variable {codec : RecordCodec} {fields : List Field} {values : List FieldValue}
  {ms : List (String × Json)}

theorem map_fst_members (h : List.Forall₂ (·.type.Has ·) fields values) :
    (codec.members fields values).map Prod.fst = fields.map Field.name := by
  induction h with
  | nil => rfl
  | cons _ _ ih => simpa [members] using ih

theorem mem_members {f : Field} {v : FieldValue} (h : (f, v) ∈ fields.zip values) :
    (f.name, codec.document v) ∈ codec.members fields values := by
  rw [members, ← List.map_uncurry_zip_eq_zipWith]
  exact List.mem_map_of_mem h

theorem exists_of_mem_members {m : String × Json} (h : m ∈ codec.members fields values) :
    ∃ f v, (f, v) ∈ fields.zip values ∧ m = (f.name, codec.document v) := by
  rw [members, ← List.map_uncurry_zip_eq_zipWith] at h
  obtain ⟨⟨f, v⟩, hmem, rfl⟩ := List.mem_map.1 h
  exact ⟨f, v, hmem, rfl⟩

theorem plain_of_mem_members (h : Declared fields) :
    ∀ m ∈ codec.members fields values, Plain m.1 := by
  intro m hm
  obtain ⟨f, v, hmem, rfl⟩ := exists_of_mem_members hm
  exact h.plain f (List.of_mem_zip hmem).1

theorem WritesCompactly.scalarText (compact : codec.WritesCompactly)
    (kebab : codec.NamesInKebabCase) {f : Field} {v : FieldValue} (h : f.type.Has v)
    (hcases : ∀ cases, f.type = .choice cases → DeclaredCases cases) :
    ScalarText (codec.document v) (codec.write (codec.document v)).toList := by
  obtain ⟨name, type, d⟩ := f
  cases h with
  | @count n hn =>
    rw [document, compact.count hn]
    exact .number (Json.whole_toString n)
  | flag b =>
    rw [document, compact.bool]
    exact .bool b
  | @choice cases c hc =>
    have letters := (hcases cases rfl).letters c hc
    have plain := letters.plain_kebabCase
    rw [document, kebab.encodeCase letters, compact.string plain]
    exact .string plain

theorem blank_nil : Json.Blank [] := by simp [Json.Blank]

theorem memberText_compact {m : String × Json} {text : String} (plain : Plain m.1)
    (scalar : ScalarText m.2 text.toList) :
    MemberText m ("\"" ++ m.1 ++ "\":" ++ text).toList := by
  simpa [Json.quote] using MemberText.mk plain scalar blank_nil blank_nil blank_nil blank_nil

theorem membersText_intercalate {m : String × Json} {part : String × Json → String}
    (h : ∀ m' ∈ m :: ms, MemberText m' (part m').toList) :
    MembersText (m :: ms) (",".intercalate ((m :: ms).map part)).toList := by
  rw [String.toList_intercalate, List.map_map]
  induction ms generalizing m with
  | nil =>
    obtain ⟨hm, -⟩ := List.forall_mem_cons.1 h
    simpa using MembersText.single hm
  | cons m' ms ih =>
    obtain ⟨hm, hms⟩ := List.forall_mem_cons.1 h
    simpa using MembersText.cons hm (ih hms)

theorem WritesCompactly.objectText (compact : codec.WritesCompactly)
    (plain : ∀ m ∈ ms, Plain m.1) (scalar : ∀ m ∈ ms, ScalarText m.2 (codec.write m.2).toList) :
    ObjectText ms (codec.write (.object ms)).toList := by
  rw [compact.object plain]
  cases ms with
  | nil => simpa using ObjectText.empty blank_nil blank_nil blank_nil
  | cons m ms =>
    have inside := membersText_intercalate fun m' hm =>
      memberText_compact (plain m' hm) (scalar m' hm)
    simpa using ObjectText.members blank_nil inside blank_nil

theorem takes_members (kebab : codec.NamesInKebabCase) (declared : Declared fields) {f : Field}
    {v : FieldValue} (hmem : (f, v) ∈ fields.zip values) (h : f.type.Has v) :
    codec.Takes (codec.members fields values) f v := by
  obtain ⟨name, type, d⟩ := f
  have member : (name, codec.document v) ∈ codec.members fields values := mem_members hmem
  cases h with
  | @count n hn =>
    have digits : Nat.ofDigitChars 10 (toString n).toList 0 = n := by
      simp
    have takes : codec.Takes (codec.members fields values) ⟨name, .count, d⟩
        (.count (Nat.ofDigitChars 10 (toString n).toList 0)) :=
      .count member (Json.whole_toString n) (digits.symm ▸ hn)
    rwa [digits] at takes
  | flag b => exact .flag member
  | @choice cases c hc =>
    have names := declared.cases _ (List.of_mem_zip hmem).1 cases rfl
    have letters := names.letters c hc
    refine .choice member ?_
    rw [document, kebab.encodeCase letters, kebab.decodeCase? names letters.plain_kebabCase,
      names.find?_eq hc]

/-- A record comes back from its text. -/
theorem decode?_write (compact : codec.WritesCompactly) (strict : codec.ReadsStrictJson)
    (kebab : codec.NamesInKebabCase) (defaults : codec.FillsDefaults) (declared : Declared fields)
    (h : List.Forall₂ (·.type.Has ·) fields values) :
    (codec.read? (codec.write (codec.encode fields values))).bind (codec.decode? fields) =
      some values := by
  have plain : ∀ m ∈ codec.members fields values, Plain m.1 := plain_of_mem_members declared
  have has := List.forall₂_iff_zip.1 h
  have scalar : ∀ m ∈ codec.members fields values,
      ScalarText m.2 (codec.write m.2).toList := by
    intro m hm
    obtain ⟨f, v, hmem, rfl⟩ := exists_of_mem_members hm
    exact compact.scalarText kebab (has.2 hmem) (declared.cases f (List.of_mem_zip hmem).1)
  have takes : List.Forall₂ (codec.Takes (codec.members fields values)) fields values :=
    List.forall₂_iff_zip.2 ⟨has.1, fun hmem => takes_members kebab declared hmem (has.2 hmem)⟩
  rw [compact.record declared h, strict (compact.objectText plain scalar), Option.bind_some]
  exact defaults declared plain (map_fst_members h ▸ declared.nodup) takes

section Json

variable {name : String} {f : Field} {v : FieldValue}

theorem compactFields_eq (ms : List (String × Json)) :
    Json.compactFields ms = ms.map fun m => "\"" ++ m.1 ++ "\":" ++ m.2.compact := by
  induction ms with
  | nil => rfl
  | cons m ms ih => simp [Json.compactFields, Json.quote, String.append_assoc, ih]

theorem json_writesCompactly : json.WritesCompactly where
  bool b := by cases b <;> rfl
  count _ := rfl
  string _ := rfl
  object {ms} _ := by
    show Json.compact (.object ms) = _
    rw [Json.compact, compactFields_eq]
    rfl
  record _ _ := by
    have same (v : FieldValue) : Json.ofFieldValue v = json.document v := by cases v <;> rfl
    simp [json, Json.ofRecord, members, same]

theorem json_readsStrictJson : json.ReadsStrictJson := Json.parse?_of_objectText

theorem json_namesInKebabCase : json.NamesInKebabCase where
  encodeCase h := congrArg Json.string h.plain_kebabCase.encode_eq
  decodeCase? {cases name} _ h := by
    show Json.case? cases (.string name) = _
    simp [Json.case?, Json.text?, h.decode?_eq]

theorem filter_eq_nil_of_not_mem (h : name ∉ ms.map Prod.fst) : ms.filter (·.1 = name) = [] := by
  rw [List.filter_eq_nil_iff]
  intro m hm
  have other : m.1 ≠ name := fun heq => h (heq ▸ List.mem_map_of_mem hm)
  simpa using other

theorem filter_eq_singleton {j : Json} (nodup : (ms.map Prod.fst).Nodup) (h : (name, j) ∈ ms) :
    ms.filter (·.1 = name) = [(name, j)] := by
  obtain ⟨before, after, rfl⟩ := List.append_of_mem h
  rw [List.map_append, List.map_cons, List.nodup_middle, List.nodup_cons, List.mem_append,
    not_or] at nodup
  obtain ⟨⟨hbefore, hafter⟩, -⟩ := nodup
  rw [List.filter_append, filter_eq_nil_of_not_mem hbefore, List.nil_append,
    List.filter_cons_of_pos (by simp), filter_eq_nil_of_not_mem hafter]

theorem Takes.member?_eq (nodup : (ms.map Prod.fst).Nodup) (h : json.Takes ms f v) :
    Json.member? ms f = some v := by
  cases h with
  | missing hname => rw [Json.member?, filter_eq_nil_of_not_mem hname]
  | count hmem whole hlt =>
    simp [Json.member?, filter_eq_singleton nodup hmem, Json.fieldValue?,
      Json.natBelow?_of_digits whole.digits hlt]
  | flag hmem =>
    simp [Json.member?, filter_eq_singleton nodup hmem, Json.fieldValue?, Json.bool?]
  | @choice _ c cases _ j hmem hcase =>
    have hcase : j.case? cases = some c := hcase
    simp [Json.member?, filter_eq_singleton nodup hmem, Json.fieldValue?, hcase]

theorem mapM_eq_some {α β : Type} {g : α → Option β} {xs : List α} {ys : List β}
    (h : List.Forall₂ (fun x y => g x = some y) xs ys) : xs.mapM g = some ys := by
  induction h with
  | nil => rfl
  | cons hx _ ih => rw [List.mapM_cons, hx, ih]; rfl

theorem json_fillsDefaults : json.FillsDefaults := by
  intro fields values ms _ plain nodup h
  have keys : (ms.mapM fun m => do return (← Json.decode? m.1, m.2)) = some ms :=
    mapM_eq_some (List.forall₂_same.2 fun m hm => by simp [(plain m hm).decode?_eq])
  have taken : fields.mapM (Json.member? ms) = some values :=
    mapM_eq_some (h.imp fun _ _ hv => hv.member?_eq nodup)
  show Json.record? fields (.object ms) = some values
  rw [Json.record?, keys]
  exact taken

end Json

end RecordCodec

end NamedLambda
