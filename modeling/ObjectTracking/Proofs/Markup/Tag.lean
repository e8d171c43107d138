import Mathlib.Data.List.Induction
import ObjectTracking.Proofs.Markup.Cutting
import ObjectTracking.Proofs.Markup.Entity
import ObjectTracking.Proofs.Markup.Mixed
/-!
Tags that were written are cut off again: where a tag ends, and which attributes it has as they
stand.
-/
set_option autoImplicit false

namespace ObjectTracking.Markup
open Text (Ends ends_nil ends_cons takeWhile_append_of_ends dropWhile_append_of_ends)

/-- Whether a character may stand in a name as it stands in a document, with a colon. -/
def isKeyChar (c : Char) : Bool := isPlain c || c == ':'

def IsKey (s : String) : Prop := s.toList ≠ [] ∧ s.toList.all isKeyChar = true

theorem isKeyChar_iff {c : Char} : isKeyChar c = true ↔ isSpace c = false ∧ c ≠ '<' ∧ c ≠ '>' ∧
    c ≠ '/' ∧ c ≠ '=' ∧ c ≠ '"' ∧ c ≠ '\'' := by
  by_cases h : c = ':'
  · subst h
    decide
  · simp [isKeyChar, isPlain, h]

theorem IsName.isKey {s : String} (h : IsName s) : IsKey s := by
  refine ⟨h.1, ?_⟩
  rw [List.all_eq_true]
  intro c hc
  simp [isKeyChar, List.all_eq_true.mp h.2 c hc]

theorem IsName.colon_not_mem {s : String} (h : IsName s) : ':' ∉ s.toList := by
  intro hmem
  have := List.all_eq_true.mp h.2 ':' hmem
  revert this
  decide

theorem toList_fullName (ns : Namespace) (name : String) :
    (ns.fullName name).toList = ns.label.toList ++ ':' :: name.toList := by
  simp [Namespace.fullName]

theorem all_isKeyChar_label (ns : Namespace) : ns.label.toList.all isKeyChar = true := by
  cases ns <;> decide

theorem IsName.isKey_fullName {s : String} (h : IsName s) (ns : Namespace) :
    IsKey (ns.fullName s) := by
  refine ⟨by simp [toList_fullName], ?_⟩
  have hcolon : isKeyChar ':' = true := by decide
  simp [toList_fullName, all_isKeyChar_label, hcolon, h.isKey.2]

def attributeChars (a : String × String) : List Char :=
  ' ' :: (a.1.toList ++ '=' :: '"' :: (escape a.2.toList ++ ['"']))

theorem toList_attributeText (a : String × String) :
    (Piece.attributeText a).toList = attributeChars a := by
  simp [Piece.attributeText, attributeChars]

theorem toList_tagText (t : PendingTag) :
    (Piece.tagText t).toList = t.name.toList ++ t.attributes.flatMap attributeChars := by
  simp only [Piece.tagText, String.toList_append, String.toList_join, List.flatMap_map,
    toList_attributeText]

section TagLength

theorem tagLength?_plain {cs : List Char} (h : ∀ c ∈ cs, c ≠ '>' ∧ c ≠ '\'' ∧ c ≠ '"') (seen : Nat)
    (rest : List Char) :
    tagLength? none seen (cs ++ rest) = tagLength? none (seen + cs.length) rest := by
  induction cs generalizing seen with
  | nil => rfl
  | cons c cs ih =>
    obtain ⟨hgt, hapos, hquot⟩ := h c List.mem_cons_self
    rw [List.cons_append, tagLength?]
    simp only [beq_iff_eq, hgt, hapos, hquot, if_false, Bool.or_eq_true, or_self]
    rw [ih fun d hd => h d (List.mem_cons_of_mem c hd), List.length_cons, Nat.add_assoc,
      Nat.add_comm 1]

theorem tagLength?_quoted {cs : List Char} (h : '"' ∉ cs) (seen : Nat) (rest : List Char) :
    tagLength? (some '"') seen (cs ++ '"' :: rest) =
      tagLength? none (seen + cs.length + 1) rest := by
  induction cs generalizing seen with
  | nil => simp [tagLength?]
  | cons c cs ih =>
    have hc : c ≠ '"' := by
      rintro rfl
      exact h List.mem_cons_self
    rw [List.cons_append, tagLength?]
    simp only [beq_iff_eq, hc, if_false]
    rw [ih fun hd => h (List.mem_cons_of_mem c hd), List.length_cons, Nat.add_assoc seen 1,
      Nat.add_comm 1]

theorem tagLength?_key {s : String} (h : IsKey s) (seen : Nat) (rest : List Char) :
    tagLength? none seen (s.toList ++ rest) = tagLength? none (seen + s.toList.length) rest := by
  refine tagLength?_plain (fun c hc => ?_) seen rest
  obtain ⟨_, _, hgt, _, _, hquot, hapos⟩ := isKeyChar_iff.mp (List.all_eq_true.mp h.2 c hc)
  exact ⟨hgt, hapos, hquot⟩

theorem tagLength?_attribute {a : String × String} (h : IsKey a.1) (seen : Nat)
    (rest : List Char) : tagLength? none seen (attributeChars a ++ rest) =
      tagLength? none (seen + (attributeChars a).length) rest := by
  have hspace : ∀ cs, tagLength? none seen (' ' :: cs) = tagLength? none (seen + 1) cs :=
    fun _ => rfl
  have hquote : ∀ n cs, tagLength? none n ('=' :: '"' :: cs) =
      tagLength? (some '"') (n + 2) cs := fun _ _ => rfl
  simp only [attributeChars, List.cons_append, List.append_assoc, List.nil_append]
  rw [hspace, tagLength?_key h, hquote, tagLength?_quoted (not_mem_escape (by simp))]
  simp only [List.length_cons, List.length_append, List.length_nil]
  congr 1
  omega

theorem tagLength?_tagText {t : PendingTag} (hname : IsKey t.name)
    (hattributes : ∀ a ∈ t.attributes, IsKey a.1) (rest : List Char) :
    tagLength? none 0 ((Piece.tagText t).toList ++ rest) =
      tagLength? none (Piece.tagText t).toList.length rest := by
  have hall : ∀ (l : List (String × String)), (∀ a ∈ l, IsKey a.1) → ∀ seen,
      tagLength? none seen (l.flatMap attributeChars ++ rest) =
        tagLength? none (seen + (l.flatMap attributeChars).length) rest := by
    intro l hl
    induction l with
    | nil => exact fun _ => rfl
    | cons a l ih =>
      intro seen
      rw [List.flatMap_cons, List.append_assoc, tagLength?_attribute (hl a List.mem_cons_self),
        ih fun b hb => hl b (List.mem_cons_of_mem a hb), List.length_append, Nat.add_assoc]
  rw [toList_tagText, List.append_assoc, tagLength?_key hname, hall t.attributes hattributes,
    List.length_append, Nat.zero_add]

end TagLength

section Tokens
variable {ns : Namespace} {name : String} {attributes : List (String × String)}

theorem tokens?_of_markup? {cs : List Char} {t : Token} {n : Nat}
    (h : markup? cs = some (some t, n)) :
    tokens? ('<' :: cs) = (t :: ·) <$> tokens? (cs.drop n) := tokens?_markup h

theorem tokens?_tag (ns : Namespace) {content rest : List Char}
    (hstart : ∃ cs, content = ns.label.toList ++ cs)
    (hlength : tagLength? none 0 (content ++ '>' :: rest) = some content.length) :
    tokens? ('<' :: (content ++ '>' :: rest)) =
      ((if content.getLast? == some '/' then Token.opening content.dropLast true
        else .opening content false) :: ·) <$> tokens? rest := by
  have hmarkup : markup? (content ++ '>' :: rest) =
      (tagLength? none 0 (content ++ '>' :: rest)).map fun n =>
        let content := (content ++ '>' :: rest).take n
        if content.getLast? == some '/' then (some (.opening content.dropLast true), n + 1)
        else (some (.opening content false), n + 1) := by
    obtain ⟨cs, rfl⟩ := hstart
    cases ns <;> rfl
  rw [hlength, Option.map_some, List.take_left] at hmarkup
  have hrest : (content ++ '>' :: rest).drop (content.length + 1) = rest := by simp
  dsimp only at hmarkup
  split at hmarkup
  · rename_i hlast
    rw [tokens?_of_markup? hmarkup, hrest, if_pos hlast]
  · rename_i hlast
    rw [tokens?_of_markup? hmarkup, hrest, if_neg hlast]

theorem toList_tagText_fullName (ns : Namespace) (name : String)
    (attributes : List (String × String)) :
    (Piece.tagText ⟨ns.fullName name, attributes⟩).toList =
      ns.label.toList ++ ':' :: (name.toList ++ attributes.flatMap attributeChars) := by
  simp [toList_tagText, toList_fullName]

theorem getLast?_tagText (ns : Namespace) (hname : IsName name) (attributes : List (String × String)) :
    (Piece.tagText ⟨ns.fullName name, attributes⟩).toList.getLast? ≠ some '/' := by
  rw [toList_tagText]
  cases attributes using List.reverseRecOn with
  | nil =>
    intro h
    have hmem : '/' ∈ (ns.fullName name).toList :=
      List.mem_of_getLast? (by simpa using h)
    have := List.all_eq_true.mp (hname.isKey_fullName ns).2 _ hmem
    revert this
    decide
  | append_singleton l a =>
    have hquote : (attributeChars a).getLast? = some '"' := by
      simp [attributeChars, List.getLast?_cons]
    rw [List.flatMap_append, List.flatMap_singleton, ← List.append_assoc, List.getLast?_append,
      hquote]
    simp

theorem tokens?_opening (ns : Namespace) (hname : IsName name) (hattributes : ∀ a ∈ attributes, IsKey a.1)
    (rest : List Char) :
    tokens? ('<' :: ((Piece.tagText ⟨ns.fullName name, attributes⟩).toList ++ '>' :: rest)) =
      (.opening (Piece.tagText ⟨ns.fullName name, attributes⟩).toList false :: ·) <$>
        tokens? rest := by
  have hlast := getLast?_tagText ns hname attributes
  rw [tokens?_tag ns ⟨_, toList_tagText_fullName ns name attributes⟩]
  · simp [hlast]
  · rw [tagLength?_tagText (hname.isKey_fullName ns) hattributes]
    rfl

theorem tokens?_empty (ns : Namespace) (hname : IsName name) (hattributes : ∀ a ∈ attributes, IsKey a.1)
    (rest : List Char) :
    tokens? ('<' :: ((Piece.tagText ⟨ns.fullName name, attributes⟩).toList ++
        '/' :: '>' :: rest)) =
      (.opening (Piece.tagText ⟨ns.fullName name, attributes⟩).toList true :: ·) <$>
        tokens? rest := by
  have hlength := tagLength?_tagText (t := ⟨ns.fullName name, attributes⟩)
    (hname.isKey_fullName ns) hattributes ('/' :: '>' :: rest)
  have hsplit : (Piece.tagText ⟨ns.fullName name, attributes⟩).toList ++ '/' :: '>' :: rest =
      ((Piece.tagText ⟨ns.fullName name, attributes⟩).toList ++ ['/']) ++ '>' :: rest := by
    simp
  rw [hsplit] at hlength ⊢
  rw [tokens?_tag ns ⟨_, by rw [toList_tagText_fullName, List.append_assoc]⟩]
  · simp
  · rw [hlength, List.length_append]
    rfl

theorem closingName_of_isKey {s : String} (h : IsKey s) : closingName s.toList = s.toList := by
  have hkeep : s.toList.reverse.dropWhile isSpace = s.toList.reverse := by
    cases hr : s.toList.reverse with
    | nil => rfl
    | cons c cs =>
      have hmem : c ∈ s.toList := by
        rw [← List.mem_reverse, hr]
        exact List.mem_cons_self
      have hspace := (isKeyChar_iff.mp (List.all_eq_true.mp h.2 c hmem)).1
      simp [hspace]
  simp only [closingName, hkeep, List.reverse_reverse]
  split <;> rfl

theorem tokens?_closing (ns : Namespace) (hname : IsName name) (rest : List Char) :
    tokens? ('<' :: '/' :: ((ns.fullName name).toList ++ '>' :: rest)) =
      (.closing (ns.fullName name).toList :: ·) <$> tokens? rest := by
  have hmarkup : markup? ('/' :: ((ns.fullName name).toList ++ '>' :: rest)) =
      (tagLength? none 0 ((ns.fullName name).toList ++ '>' :: rest)).map fun n =>
        (some (.closing (closingName (((ns.fullName name).toList ++ '>' :: rest).take n))),
          n + 2) := rfl
  have hlength : tagLength? none 0 ((ns.fullName name).toList ++ '>' :: rest) =
      some (ns.fullName name).toList.length := by
    rw [tagLength?_key (hname.isKey_fullName ns), Nat.zero_add]
    rfl
  rw [hlength, Option.map_some, List.take_left, closingName_of_isKey (hname.isKey_fullName ns)]
    at hmarkup
  rw [tokens?_of_markup? hmarkup]
  simp

end Tokens

section Attributes

def raw (a : String × String) : RawAttribute := ⟨a.1.toList, escape a.2.toList⟩

theorem rawAttribute?_append {a : String × String} (h : IsKey a.1) (rest : List Char) :
    rawAttribute? (a.1.toList ++ '=' :: '"' :: (escape a.2.toList ++ '"' :: rest)) =
      some (raw a, rest) := by
  obtain ⟨hne, hall⟩ := h
  unfold raw
  cases hkey : a.1.toList with
  | nil => exact absurd hkey hne
  | cons k ks =>
    rw [hkey, List.all_cons, Bool.and_eq_true] at hall
    have hin : ks.all (fun c => c != '=' && !isSpace c) = true := by
      rw [List.all_eq_true]
      intro c hc
      obtain ⟨hspace, _, _, _, heq, _⟩ := isKeyChar_iff.mp (List.all_eq_true.mp hall.2 c hc)
      simp [hspace, heq]
    have hend : ∀ cs, Ends (fun c => c != '=' && !isSpace c) ('=' :: cs) :=
      fun cs => ends_cons (by decide) cs
    have hvalue : (escape a.2.toList).all (· != '"') = true := by
      rw [List.all_eq_true]
      intro c hc
      rw [bne_iff_ne]
      rintro rfl
      exact not_mem_escape (by simp) hc
    have hquote : Ends (· != '"') ('"' :: rest) := ends_cons (by decide) rest
    have hequals : ∀ cs, ('=' :: cs).dropWhile isSpace = '=' :: cs := fun _ => rfl
    have hopen : ∀ cs, ('"' :: cs).dropWhile isSpace = '"' :: cs := fun _ => rfl
    have hlt : (escape a.2.toList).length < (escape a.2.toList ++ '"' :: rest).length := by
      simp
    simp only [List.cons_append, rawAttribute?, dropWhile_append_of_ends hin (hend _), hequals,
      hopen, takeWhile_append_of_ends hin (hend _), takeWhile_append_of_ends hvalue hquote, hlt,
      if_true, List.take_left, BEq.rfl, Bool.or_true]
    simp

theorem rawAttributes?_of_cons {cs cs' rest : List Char} {a : RawAttribute} (hne : cs' ≠ [])
    (hcs : cs.dropWhile isSpace = cs') (ha : rawAttribute? cs' = some (a, rest)) :
    rawAttributes? cs = (a :: ·) <$> rawAttributes? rest := by
  rw [rawAttributes?]
  split
  · rename_i hnil
    exact absurd (hcs.symm.trans hnil) hne
  · rename_i k body hcons
    rw [← hcons, hcs]
    split
    · rename_i hnone
      rw [ha] at hnone
      cases hnone
    · rename_i a' rest' hsome
      rw [ha] at hsome
      cases hsome
      rfl

theorem rawAttributes?_flatMap {attributes : List (String × String)}
    (h : ∀ a ∈ attributes, IsKey a.1) :
    rawAttributes? (attributes.flatMap attributeChars) = some (attributes.map raw) := by
  induction attributes with
  | nil =>
    rw [List.flatMap_nil, rawAttributes?]
    rfl
  | cons a attributes ih =>
    have ha := h a List.mem_cons_self
    have hread := rawAttribute?_append ha (attributes.flatMap attributeChars)
    have hcs : ((a :: attributes).flatMap attributeChars).dropWhile isSpace =
        a.1.toList ++ '=' :: '"' :: (escape a.2.toList ++ '"' ::
          attributes.flatMap attributeChars) := by
      cases hkey : a.1.toList with
      | nil => exact absurd hkey ha.1
      | cons k ks =>
        have hall := ha.2
        rw [hkey, List.all_cons, Bool.and_eq_true] at hall
        have hk := (isKeyChar_iff.mp hall.1).1
        have hblank : isSpace ' ' = true := by decide
        simp [attributeChars, hkey, hk, hblank]
    rw [rawAttributes?_of_cons (by simp) hcs hread, ih fun b hb => h b (List.mem_cons_of_mem a hb)]
    rfl

end Attributes

end ObjectTracking.Markup
