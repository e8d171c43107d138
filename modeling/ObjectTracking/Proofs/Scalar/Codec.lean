import ObjectTracking.Proofs.Text.Base64
import ObjectTracking.Proofs.Text.Digits
import ObjectTracking.Proofs.Time.Bias
import ObjectTracking.Scalar.Codec
/-!
Scalars that were written are read again. Doubles are left out, for their text is rounded, and so
are the codecs of users, which may do as they like.
-/
set_option autoImplicit false

namespace ObjectTracking
open Text

namespace Codec

/-- A codec that reads what it writes: the names of an enumeration are not empty and have no blanks
around them. -/
def Faithful : Codec → Prop
  | double => False
  | custom _ => False
  | enumeration names => ∀ n ∈ names, n ≠ "" ∧ trimmed n = n
  | _ => True

/-- A codec that writes every value it reads, as all do but perhaps those of users. -/
def Consistent : Codec → Prop
  | custom c => ∀ text s, c.parse text = some (some s) → ∃ out, c.format s = some out
  | _ => True

instance : DecidablePred Faithful
  | double => .isFalse id
  | custom _ => .isFalse id
  | enumeration names => inferInstanceAs (Decidable (∀ n ∈ names, n ≠ "" ∧ trimmed n = n))
  | text => .isTrue trivial
  | boolean => .isTrue trivial
  | integer => .isTrue trivial
  | base64 => .isTrue trivial
  | bias => .isTrue trivial

/-- A scalar in the form in which a codec stores it. -/
def Stores (codec : Codec) (s : Scalar) : Prop := ∀ property, codec.normalise property s = .ok s

def readsEmpty : Codec → Bool
  | text => true
  | base64 => true
  | _ => false

def empty? : Codec → Option Scalar
  | text => some (.text "")
  | base64 => some (.binary [])
  | _ => none

theorem empty?_eq_none_iff {codec : Codec} : codec.empty? = none ↔ codec.readsEmpty = false := by
  cases codec <;> simp [empty?, readsEmpty]

variable {codec : Codec} {s s' : Scalar} {property : String}

theorem normalise_stores (h : codec.normalise property s = .ok s') : codec.Stores s' := by
  intro property'
  cases codec with
  | enumeration names =>
    simp only [normalise] at h ⊢
    cases ht : s.text? with
    | none => simp [ht] at h
    | some n =>
      simp only [ht] at h
      split at h
      · rename_i hmem
        cases h
        simp only [Scalar.text?, hmem, if_true]
      · cases h
  | _ =>
    simp only [normalise] at h ⊢
    split at h
    · rename_i htext
      cases h
      rw [htext]
    · cases h

theorem Stores.text? (h : codec.Stores s) : ∃ text, codec.text? s = some text := by
  have h := h ""
  cases codec with
  | enumeration names =>
    simp only [normalise] at h
    cases ht : s.text? with
    | none => simp [ht] at h
    | some n =>
      simp only [ht] at h
      split at h
      · rename_i hmem
        rw [List.contains_iff_mem] at hmem
        exact ⟨n, by simp [Codec.text?, ht, Option.filter, hmem]⟩
      · cases h
  | _ =>
    simp only [normalise] at h
    split at h
    · rename_i text htext
      exact ⟨text, htext⟩
    · cases h

theorem integer64?_signed (i : Int64) : integer64? (signed i.toInt) = some i := by
  rw [integer64?, integer?_signed, Option.bind_some, if_pos, Int64.ofInt_toInt]
  exact ⟨Int64.minValue_le_toInt i, Int64.toInt_le i⟩

/-- What is read of a text that is not empty and has no blanks around it. -/
theorem parse_filled {text : String} {v : Scalar} {strict : Bool}
    (hempty : codec.readsEmpty = false) (hcustom : ∀ c, codec ≠ .custom c)
    (htrim : trim text.toList = text.toList) (hne : text.toList ≠ [])
    (hread : codec.parseFilled text.toList strict = .ok (some v, true)) :
    codec.parse property text strict = (.ok (some v), []) := by
  have hfilled : text.toList.isEmpty = false := List.isEmpty_eq_false_iff.mpr hne
  unfold parse
  cases codec with
  | text => cases hempty
  | base64 => cases hempty
  | custom c => exact absurd rfl (hcustom c)
  | _ => simp only [htrim, hfilled, Bool.false_eq_true, if_false, hread]

theorem parseFilled_stores {cs : List Char} {strict known : Bool}
    (h : codec.parseFilled cs strict = .ok (some s, known)) : codec.Stores s := by
  intro property
  cases codec with
  | text => cases h
  | base64 => cases h
  | custom c => cases h
  | enumeration names =>
    simp only [parseFilled] at h
    split at h
    · rename_i n hn
      cases h
      simp [normalise, Scalar.text?, List.mem_of_find?_eq_some hn]
    · split at h <;> cases h
  | _ =>
    simp only [parseFilled] at h
    split at h
    · cases h
      rfl
    · cases h

theorem Faithful.consistent (h : codec.Faithful) : codec.Consistent := by
  cases codec with
  | custom c => cases h
  | _ => trivial

/-- What is read is in the form in which it is stored. -/
theorem parse_stores {text : String} {strict : Bool} (hcodec : codec.Consistent)
    (h : (codec.parse property text strict).1 = .ok (some s)) : codec.Stores s := by
  cases codec with
  | text =>
    cases h
    exact fun _ => rfl
  | base64 =>
    simp only [parse] at h
    split at h
    · cases h
      exact fun _ => rfl
    · cases h
  | custom c =>
    simp only [parse] at h
    split at h
    · rename_i hread
      cases h
      obtain ⟨out, hout⟩ := hcodec text s hread
      intro property
      simp only [normalise, text?, hout]
    · cases h
  | _ =>
    simp only [parse] at h
    split at h
    · cases h
    · split at h
      · rename_i hread
        cases h
        exact parseFilled_stores hread
      · rename_i hread
        cases h
        exact parseFilled_stores hread
      · cases h

theorem parse_empty (hf : codec.Faithful) (strict : Bool) :
    codec.parse property "" strict = (.ok codec.empty?, []) := by
  cases codec with
  | custom c => cases hf
  | _ => rfl

theorem parse_name {names : List String} {n : String} (hmem : n ∈ names) (hne : n ≠ "")
    (htrim : trimmed n = n) (strict : Bool) :
    (enumeration names).parse property n strict = (.ok (some (.name n)), []) := by
  have htrim : trim n.toList = n.toList := by
    simpa [trimmed] using congrArg String.toList htrim
  have hfind : names.find? (· == n) = some n := by
    cases hfound : names.find? (· == n) with
    | none => exact absurd BEq.rfl (List.find?_eq_none.mp hfound n hmem)
    | some m =>
      have hm : m = n := by simpa using List.find?_some hfound
      rw [hm]
  refine parse_filled rfl (by simp) htrim (by simpa using hne) ?_
  simp [parseFilled, hfind]

/-- A scalar that was written is read again. -/
theorem parse_text? (hf : codec.Faithful) (hs : codec.Stores s) {text : String}
    (ht : codec.text? s = some text) (strict : Bool) :
    codec.parse property text strict = (.ok (some s), []) := by
  cases codec with
  | text =>
    cases s <;> cases ht
    rfl
  | boolean =>
    cases s <;> cases ht
    rename_i b
    cases b
    · exact parse_filled rfl (by simp) rfl (by decide) rfl
    · exact parse_filled rfl (by simp) rfl (by decide) rfl
  | integer =>
    cases s <;> cases ht
    rename_i i
    refine parse_filled rfl (by simp) ?_ ?_ ?_
    · rw [String.toList_ofList]
      exact trim_eq_self_of_all fun _ => isBlank_of_mem_signed
    · rw [String.toList_ofList]
      exact signed_ne_nil i.toInt
    · simp [parseFilled, integer64?_signed]
  | double => cases hf
  | enumeration names =>
    have h := hs ""
    simp only [normalise] at h
    cases hn : s.text? with
    | none => simp [hn] at h
    | some n =>
      simp only [hn] at h
      split at h
      · rename_i hmem
        cases h
        rw [List.contains_iff_mem] at hmem
        obtain rfl : n = text := by simpa [Codec.text?, Scalar.text?, Option.filter, hmem] using ht
        obtain ⟨hne, htrim⟩ := hf n hmem
        exact parse_name hmem hne htrim strict
      · cases h
  | base64 =>
    cases s <;> cases ht
    rename_i bytes
    have htrim : trim (Base64.encode bytes) = Base64.encode bytes :=
      trim_eq_self_of_all fun _ => Base64.isBlank_of_mem_encode
    simp only [parse, String.toList_ofList, htrim, Base64.decode_encode]
  | bias =>
    cases s <;> cases ht
    rename_i o
    refine parse_filled rfl (by simp) ?_ ?_ ?_
    · rw [String.toList_ofList]
      exact Time.Bias.trim_format o
    · obtain ⟨parts, hformat, _⟩ := Time.Bias.format_eq o
      rw [String.toList_ofList, hformat]
      simp
    · simp [parseFilled, Time.Bias.parse?_format]
  | custom c => cases hf

end Codec

end ObjectTracking
