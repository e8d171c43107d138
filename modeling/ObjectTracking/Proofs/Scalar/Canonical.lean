import ObjectTracking.Property.Content
import ObjectTracking.Proofs.Scalar.Codec
/-!
The three functions of a codec agree. What it reads is in canonical form, it has a canonical form for
just the values that it writes, and a value is written and read again as its canonical form.
-/
set_option autoImplicit false

namespace ObjectTracking.Codec
open Text

variable {codec : Codec} {property : String} {s s' : Scalar} {v : Value}

def IsFor : Codec → Scalar → Prop
  | text, .text _ => True
  | boolean, .boolean _ => True
  | integer, .integer _ => True
  | enumeration names, .text n => n ∈ names
  | enumeration names, .name n => n ∈ names
  | base64, .binary _ => True
  | bias, .offset _ => True
  | _, _ => False

theorem exists_text?_iff_isFor (hdouble : codec ≠ .double) (hcustom : ∀ c, codec ≠ .custom c) :
    (∃ out, codec.text? s = some out) ↔ codec.IsFor s := by
  cases codec with
  | double => exact absurd rfl hdouble
  | custom c => exact absurd rfl (hcustom c)
  | enumeration names =>
    cases s <;> simp [text?, Scalar.text?, IsFor, Option.filter_eq_some_iff]
  | _ => cases s <;> simp [text?, IsFor]

/-- What a codec writes for the canonical form of a scalar, it writes for the scalar, and it refuses
what has none. -/
theorem normalise_bind_format (codec : Codec) (property : String) (s : Scalar) :
    ((codec.normalise property s).bind fun s' => codec.format property (some s')) =
      codec.format property (some s) := by
  cases codec with
  | enumeration names =>
    have htext : ∀ s : Scalar,
        (enumeration names).text? s = s.text?.filter names.contains := fun _ => rfl
    cases hs : s.text? with
    | none => simp [normalise, format, htext, hs, Except.bind]
    | some n =>
      have hname : (Scalar.name n).text? = some n := rfl
      by_cases hmem : n ∈ names
      · simp [normalise, format, htext, hs, hname, Option.filter, hmem, Except.bind]
      · simp [normalise, format, htext, hs, Option.filter, hmem, Except.bind]
  | _ =>
    simp only [normalise, format]
    split
    · rename_i out hout
      simp only [Except.bind, hout]
    · rfl

/-- A name that an enumeration reads is not empty and has no blanks around it. -/
theorem parse_enumeration {names : List String} {text : String} {strict : Bool}
    (h : ((enumeration names).parse property text strict).1 = .ok (some s)) :
    ∃ n ∈ names, s = .name n ∧ n ≠ "" ∧ trimmed n = n := by
  simp only [parse, parseFilled] at h
  split at h
  · cases h
  · rename_i hfilled
    cases hn : names.find? (· == String.ofList (trim text.toList)) with
    | none => cases strict <;> simp [hn] at h
    | some n =>
      obtain rfl : Scalar.name n = s := by simpa [hn] using h
      obtain rfl : n = String.ofList (trim text.toList) := by simpa using List.find?_some hn
      refine ⟨_, List.mem_of_find?_eq_some hn, rfl, by simpa using hfilled, ?_⟩
      rw [trimmed, String.toList_ofList, trim_trim]

theorem text?_eq_of_normalise (h : codec.normalise property s = .ok s') :
    codec.text? s' = codec.text? s := by
  obtain ⟨out, hout⟩ := (normalise_stores h).text?
  have hformat := normalise_bind_format codec property s
  simp only [h, Except.bind, format, hout] at hformat
  cases hs : codec.text? s with
  | none => simp [hs] at hformat
  | some text => simpa [hs, hout] using hformat

theorem exists_normalise_iff (property : String) :
    (∃ s', codec.normalise property s = .ok s') ↔ ∃ out, codec.text? s = some out := by
  constructor
  · rintro ⟨s', h⟩
    rw [← text?_eq_of_normalise h]
    exact (normalise_stores h).text?
  · rintro ⟨out, hout⟩
    cases h : codec.normalise property s with
    | ok s' => exact ⟨s', rfl⟩
    | error e =>
      have hformat := normalise_bind_format codec property s
      simp [h, Except.bind, format, hout] at hformat

/-- What a codec reads it writes as a text that is read as the same again. -/
theorem parse_again (hdouble : codec ≠ .double) (hcustom : ∀ c, codec ≠ .custom c) {text : String}
    {strict : Bool} (h : (codec.parse property text strict).1 = .ok (some s)) :
    codec.Stores s ∧
      ∃ out, codec.text? s = some out ∧ codec.parse property out true = (.ok (some s), []) := by
  have hstores : codec.Stores s := by
    refine parse_stores ?_ h
    cases codec with
    | custom c => exact absurd rfl (hcustom c)
    | _ => trivial
  obtain ⟨out, hout⟩ := hstores.text?
  refine ⟨hstores, out, hout, ?_⟩
  cases codec with
  | double => exact absurd rfl hdouble
  | custom c => exact absurd rfl (hcustom c)
  | enumeration names =>
    obtain ⟨n, hmem, rfl, hne, htrim⟩ := parse_enumeration h
    obtain rfl : n = out := by simpa [text?, Scalar.text?, Option.filter, hmem] using hout
    exact parse_name hmem hne htrim true
  | _ =>
    refine parse_text? ?_ hstores hout true
    trivial

/-- The functions of a codec agree on texts and on values of any kind. -/
structure AgreesWithItself (codec : Codec) (property : String) : Prop where
  /-- What is read is in canonical form, and is read again from what is written for it. -/
  read : ∀ (text : String) (strict : Bool) (v : Value), v.isNull = false →
    (codec.parseValue property text strict).1 = .ok v →
      codec.normaliseValue property v = .ok v ∧
        ∃ out, codec.formatValue property v = .ok (some out) ∧
          codec.parseValue property out true = (.ok v, [])
  /-- The values with a canonical form are those that are written. -/
  accepts : ∀ v : Value, v.isNull = false →
    ((∃ v', codec.normaliseValue property v = .ok v') ↔
      ∃ out, codec.formatValue property v = .ok (some out))
  /-- A value is written as its canonical form is. -/
  canonical : ∀ v : Value, v.isNull = false →
    (codec.normaliseValue property v).bind (codec.formatValue property) =
      codec.formatValue property v
  /-- What is written is read as the canonical form. -/
  reread : codec.Faithful → ∀ (v : Value) (out : String),
    codec.formatValue property v = .ok (some out) →
      codec.parseValue property out true = (codec.normaliseValue property v, [])
  /-- The values that are written are the scalars that the codec is for. -/
  writes : ∀ v : Value, (∃ out, codec.formatValue property v = .ok (some out)) ↔
    ∃ s, v = .scalar s ∧ codec.IsFor s
  /-- Binary data is written in the standard alphabet, with padding. -/
  standard : codec = .base64 → ∀ (bytes : List UInt8) (out : String),
    codec.formatValue property (.scalar (.binary bytes)) = .ok (some out) →
      Base64.Spells out.toList bytes

theorem exists_parse_of_parseValue {text : String} {strict : Bool} (hv : v.isNull = false)
    (h : (codec.parseValue property text strict).1 = .ok v) :
    ∃ s, v = .scalar s ∧ (codec.parse property text strict).1 = .ok (some s) := by
  unfold parseValue at h
  cases hs : (codec.parse property text strict).1 with
  | error e => simp [hs, Except.map] at h
  | ok s? =>
    obtain rfl : Value.ofScalar? s? = v := by simpa [hs, Except.map] using h
    cases s? with
    | none => cases hv
    | some s => exact ⟨s, rfl, rfl⟩

theorem parseValue_of_parse {text : String} {strict : Bool}
    (h : codec.parse property text strict = (.ok (some s), [])) :
    codec.parseValue property text strict = (.ok (.scalar s), []) := by
  rw [parseValue, h]
  rfl

theorem formatValue_scalar_eq_ok_iff {out : String} :
    codec.formatValue property (.scalar s) = .ok (some out) ↔ codec.text? s = some out := by
  simp only [formatValue, format]
  cases codec.text? s <;> simp

theorem normaliseValue_scalar (codec : Codec) (property : String) (s : Scalar) :
    codec.normaliseValue property (.scalar s) = (codec.normalise property s).map .scalar := by
  cases codec <;> rfl

theorem exists_scalar_of_formatValue {out : String}
    (h : codec.formatValue property v = .ok (some out)) : ∃ s, v = .scalar s := by
  cases v with
  | scalar s => exact ⟨s, rfl⟩
  | _ => cases h

theorem normaliseValue_bind_formatValue (codec : Codec) (property : String)
    (hv : v.isNull = false) :
    (codec.normaliseValue property v).bind (codec.formatValue property) =
      codec.formatValue property v := by
  cases v with
  | null => cases hv
  | scalar s =>
    have hscalar := normalise_bind_format codec property s
    rw [normaliseValue_scalar]
    cases hs : codec.normalise property s with
    | error e =>
      rw [hs] at hscalar
      exact hscalar
    | ok s' =>
      rw [hs] at hscalar
      exact hscalar
  | _ => cases codec <;> rfl

/-- Every codec agrees with itself but perhaps those of users, and that of doubles, whose text is
rounded. -/
theorem agreesWithItself (hdouble : codec ≠ .double) (hcustom : ∀ c, codec ≠ .custom c)
    (property : String) : codec.AgreesWithItself property where
  read := by
    intro text strict v hv h
    obtain ⟨s, rfl, hs⟩ := exists_parse_of_parseValue hv h
    obtain ⟨hstores, out, hout, hagain⟩ := parse_again hdouble hcustom hs
    refine ⟨?_, out, formatValue_scalar_eq_ok_iff.mpr hout, parseValue_of_parse hagain⟩
    rw [normaliseValue_scalar, hstores property]
    rfl
  accepts := by
    intro v hv
    cases v with
    | null => cases hv
    | scalar s =>
      simp only [formatValue_scalar_eq_ok_iff, ← exists_normalise_iff property,
        normaliseValue_scalar]
      cases codec.normalise property s <;> simp [Except.map]
    | _ => cases codec <;> simp [normaliseValue, formatValue]
  canonical := fun v hv => normaliseValue_bind_formatValue codec property hv
  reread := by
    intro hf v out h
    obtain ⟨s, rfl⟩ := exists_scalar_of_formatValue h
    have hout := formatValue_scalar_eq_ok_iff.mp h
    obtain ⟨s', hs'⟩ := (exists_normalise_iff property).mpr ⟨out, hout⟩
    rw [← text?_eq_of_normalise hs'] at hout
    rw [parseValue_of_parse (parse_text? hf (normalise_stores hs') hout true),
      normaliseValue_scalar, hs']
    rfl
  writes := by
    intro v
    constructor
    · rintro ⟨out, h⟩
      obtain ⟨s, rfl⟩ := exists_scalar_of_formatValue h
      have hout := formatValue_scalar_eq_ok_iff.mp h
      exact ⟨s, rfl, (exists_text?_iff_isFor hdouble hcustom).mp ⟨out, hout⟩⟩
    · rintro ⟨s, rfl, hs⟩
      obtain ⟨out, hout⟩ := (exists_text?_iff_isFor hdouble hcustom).mpr hs
      exact ⟨out, formatValue_scalar_eq_ok_iff.mpr hout⟩
  standard := by
    rintro rfl bytes out h
    obtain rfl : String.ofList (Base64.encode bytes) = out := by
      simpa [formatValue, format, text?] using h
    rw [String.toList_ofList]
    exact Base64.spells_encode bytes

def status : Codec := .enumeration ["Free", "Busy"]

theorem status_agreesWithItself :
    status ≠ .double ∧ (∀ c, status ≠ .custom c) ∧ status.Faithful ∧
      status.AgreesWithItself "Status" ∧
      (status.parseValue "Status" " Busy\n" false).1 = .ok (.scalar (.name "Busy")) ∧
      status.normaliseValue "Status" (.scalar (.text "Busy")) = .ok (.scalar (.name "Busy")) := by
  have hdouble : status ≠ .double := fun h => by cases h
  have hcustom : ∀ c, status ≠ .custom c := fun c h => by cases h
  exact ⟨hdouble, hcustom, by decide, agreesWithItself hdouble hcustom "Status", rfl, rfl⟩

end ObjectTracking.Codec
