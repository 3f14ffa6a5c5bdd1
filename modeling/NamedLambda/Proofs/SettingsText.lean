import NamedLambda.Proofs.RecordText

/-!
# Settings come back from their text

Settings are a record of four fields. Whatever codec is given that writes compactly, reads strict
JSON, names cases in kebab case and fills in defaults, some settings are written as one object and
read as what they were (`Settings.ofText?_toText`). The number of steps is read digit by digit as
a number with 64 bits, so it comes back also where a floating point number could not hold it.
-/

namespace NamedLambda

theorem Strategy.ofIdentifier?_identifier (strategy : Strategy) :
    ofIdentifier? strategy.identifier = some strategy := by
  cases strategy <;> decide

theorem Strategy.declaredCases_identifiers : DeclaredCases identifiers where
  letters := by simp [identifiers, identifier, Letters]
  nodup := by decide

theorem Strategy.identifier_mem (strategy : Strategy) : strategy.identifier ∈ identifiers := by
  cases strategy <;> decide

namespace Settings

variable {s : Settings} {codec : RecordCodec}

theorem ofValues?_values (s : Settings) : ofValues? s.values = some s := by
  simp [ofValues?, values, Strategy.ofIdentifier?_identifier]

theorem has_values (h : s.maxSteps < UInt64.size) :
    List.Forall₂ (·.type.Has ·) fields s.values :=
  .cons (.count h) (.cons (.choice s.strategy.identifier_mem)
    (.cons (.flag s.eta) (.cons (.flag s.trace) .nil)))

theorem declared_fields : Declared fields where
  plain := by simp [fields, Json.Plain]
  nodup := by decide
  default := by
    have has : List.Forall₂ (·.type.Has ·) fields (fields.map Field.default) :=
      has_values (s := {}) (by decide)
    exact List.forall₂_same.1 (List.forall₂_map_right_iff.1 has)
  cases := by
    intro f hf cases htype
    simp only [fields, List.mem_cons, List.not_mem_nil, or_false] at hf
    rcases hf with rfl | rfl | rfl | rfl <;> cases htype
    exact Strategy.declaredCases_identifiers

theorem toText_eq (compact : codec.WritesCompactly) (kebab : codec.NamesInKebabCase)
    (h : s.maxSteps < UInt64.size) :
    s.toText codec = "\x7b\"max_steps\":" ++ toString s.maxSteps ++ ",\"strategy\":\"" ++
      kebabCase s.strategy.identifier ++ "\",\"eta\":" ++ toString s.eta ++ ",\"trace\":" ++
      toString s.trace ++ "\x7d" := by
  have letters : Letters s.strategy.identifier :=
    Strategy.declaredCases_identifiers.letters _ s.strategy.identifier_mem
  have keys : ∀ m ∈ codec.members fields s.values, Json.Plain m.1 :=
    RecordCodec.plain_of_mem_members declared_fields
  rw [toText, compact.record declared_fields (has_values h), compact.object keys]
  simp only [RecordCodec.members, fields, values, List.zipWith_cons_cons, List.zipWith_nil_left,
    List.map_cons, List.map_nil, RecordCodec.document, kebab.encodeCase letters, compact.count h,
    compact.bool, compact.string letters.plain_kebabCase]
  simp [← String.toList_inj]

/-- Whatever the codec is beyond what is assumed of it, settings are written as one object without
a space, and the text is read as the settings, with any number of steps that 64 bits hold. -/
theorem ofText?_toText (compact : codec.WritesCompactly) (strict : codec.ReadsStrictJson)
    (kebab : codec.NamesInKebabCase) (defaults : codec.FillsDefaults)
    (h : s.maxSteps < UInt64.size) :
    s.toText codec = "\x7b\"max_steps\":" ++ toString s.maxSteps ++ ",\"strategy\":\"" ++
        kebabCase s.strategy.identifier ++ "\",\"eta\":" ++ toString s.eta ++ ",\"trace\":" ++
        toString s.trace ++ "\x7d" ∧
      ofText? codec (s.toText codec) = some s := by
  refine ⟨toText_eq compact kebab h, ?_⟩
  have read := RecordCodec.decode?_write compact strict kebab defaults declared_fields
    (has_values h)
  have same : ofText? codec (s.toText codec) =
      ((codec.read? (s.toText codec)).bind (codec.decode? fields)).bind ofValues? :=
    (Option.bind_assoc ..).symm
  rw [same, toText, read]
  exact s.ofValues?_values

/-- The greatest number of steps is no floating point number. -/
theorem ofText?_toText_greatest :
    let s : Settings :=
      { maxSteps := UInt64.size - 1, strategy := .applicative, eta := true, trace := true }
    let text := "\x7b\"max_steps\":18446744073709551615,\"strategy\":\"applicative\"," ++
      "\"eta\":true,\"trace\":true\x7d"
    RecordCodec.json.WritesCompactly ∧ RecordCodec.json.ReadsStrictJson ∧
      RecordCodec.json.NamesInKebabCase ∧ RecordCodec.json.FillsDefaults ∧
      s.maxSteps < UInt64.size ∧ s.toText .json = text ∧ ofText? .json text = some s := by
  intro s text
  have bound : s.maxSteps < UInt64.size := by decide
  obtain ⟨written, read⟩ := ofText?_toText RecordCodec.json_writesCompactly
    RecordCodec.json_readsStrictJson RecordCodec.json_namesInKebabCase
    RecordCodec.json_fillsDefaults bound
  have htext : s.toText .json = text := written.trans (by decide)
  exact ⟨RecordCodec.json_writesCompactly, RecordCodec.json_readsStrictJson,
    RecordCodec.json_namesInKebabCase, RecordCodec.json_fillsDefaults, bound, htext, htext ▸ read⟩

end Settings

end NamedLambda
