import Mathlib.Data.List.Nodup
import Mathlib.Data.List.TakeDrop
import ObjectTracking.Proofs.Markup.Tag
/-!
Start tags that were written are read with the names and attributes they were written with. The root
declares the namespaces, and no element below it declares any.
-/
set_option autoImplicit false

namespace ObjectTracking.Markup
open Text (Ends ends_nil ends_cons takeWhile_append_of_ends dropWhile_append_of_ends)

section Names
variable {s : String}

theorem all_bne_colon {cs : List Char} (h : ':' ∉ cs) : cs.all (· != ':') = true := by
  rw [List.all_eq_true]
  intro c hc
  rw [bne_iff_ne]
  rintro rfl
  exact h hc

theorem splitName_of_not_mem {cs : List Char} (h : ':' ∉ cs) : splitName cs = (none, cs) := by
  have htake := takeWhile_append_of_ends (all_bne_colon h) (ends_nil _)
  have hdrop := dropWhile_append_of_ends (all_bne_colon h) (ends_nil _)
  rw [List.append_nil] at htake hdrop
  rw [splitName, List.span_eq_takeWhile_dropWhile, htake, hdrop]

theorem localName_of_isName (h : IsName s) : localName s.toList = s := by
  rw [localName, splitName_of_not_mem h.colon_not_mem, String.ofList_toList]

theorem splitName_fullName (ns : Namespace) (s : String) :
    splitName (ns.fullName s).toList = (some ns.label.toList, s.toList) := by
  rw [toList_fullName]
  cases ns <;> rfl

theorem localName_fullName (ns : Namespace) (s : String) : localName (ns.fullName s).toList = s := by
  rw [localName, splitName_fullName, String.ofList_toList]

theorem declared?_of_isName (h : IsName s) (hne : s ≠ "xmlns") : declared? s.toList = none := by
  unfold declared?
  split
  · rename_i heq
    exact absurd (String.toList_inj.mp heq) hne
  · rename_i label heq
    exact absurd (by simp [heq]) h.colon_not_mem
  · rfl

end Names

/-- Declarations by which the elements of the library are known. -/
def Declares (bindings : Bindings) : Prop :=
  ∀ ns : Namespace, bindings.lookup ns.label.toList = some ns.uri.toList

theorem resolve_fullName {bindings : Bindings} (h : Declares bindings) (ns : Namespace)
    (name : String) : resolve bindings (ns.fullName name).toList = some ns := by
  have hlabel : (ns.label.toList == ([] : List Char)) = false := by cases ns <;> rfl
  simp only [resolve, splitName_fullName, hlabel, Bool.false_eq_true, if_false, h ns,
    Option.bind_some, String.ofList_toList, Namespace.ofUri?_uri]

section OpenTag
variable {frames : List Frame} {ns : Namespace} {name : String}
variable {attributes : List (String × String)}

theorem takeWhile_tagText (ns : Namespace) (hname : IsName name)
    (attributes : List (String × String)) :
    (Piece.tagText ⟨ns.fullName name, attributes⟩).toList.takeWhile (!isSpace ·) =
      (ns.fullName name).toList := by
  rw [toList_tagText]
  apply takeWhile_append_of_ends
  · rw [List.all_eq_true]
    intro c hc
    have := (isKeyChar_iff.mp (List.all_eq_true.mp (hname.isKey_fullName ns).2 c hc)).1
    simp [this]
  · cases attributes with
    | nil => exact ends_nil _
    | cons a attributes => exact ends_cons (by decide) _

theorem drop_tagText (ns : Namespace) (name : String) (attributes : List (String × String)) :
    (Piece.tagText ⟨ns.fullName name, attributes⟩).toList.drop (ns.fullName name).toList.length =
      attributes.flatMap attributeChars := by
  rw [toList_tagText, List.drop_left]

theorem openTag?_of_declares (hname : IsName name) (hkeys : ∀ a ∈ attributes, IsKey a.1)
    (hdistinct : (attributes.map Prod.fst).Nodup) {bindings : Bindings}
    (hbindings : (attributes.map raw).foldlM declare? (bindingsOf frames) = some bindings)
    (hdeclares : Declares bindings) {own : List (String × String)}
    (hown : ((attributes.map raw).filter fun a => (declared? a.key).isNone).mapM (fun a =>
      (unescape? a.value).map fun v => (localName a.key, String.ofList v)) = some own) :
    openTag? frames (Piece.tagText ⟨ns.fullName name, attributes⟩).toList =
      some (⟨some ns, name, own⟩, ⟨(ns.fullName name).toList, bindings⟩) := by
  have hnodup : ((attributes.map raw).map (·.key)).Nodup := by
    have hkey : (attributes.map raw).map (·.key) = (attributes.map Prod.fst).map String.toList := by
      simp [raw]
    rw [hkey]
    exact hdistinct.map fun _ _ => String.toList_inj.mp
  unfold openTag?
  simp only [takeWhile_tagText ns hname, drop_tagText, rawAttributes?_flatMap hkeys,
    Option.bind_eq_bind, Option.bind_some, hnodup, decide_true, Bool.not_true, Bool.false_eq_true,
    if_false, hbindings, hown, resolve_fullName hdeclares, localName_fullName]

theorem foldlM_declare? (bindings : Bindings)
    (h : ∀ a ∈ attributes, declared? a.1.toList = none) :
    (attributes.map raw).foldlM declare? bindings = some bindings := by
  induction attributes with
  | nil => rfl
  | cons a attributes ih =>
    have ha : declared? (raw a).key = none := h a List.mem_cons_self
    rw [List.map_cons, List.foldlM_cons, declare?, ha]
    exact ih fun b hb => h b (List.mem_cons_of_mem a hb)

/-- Attributes that declare nothing are all the reader's own. -/
theorem filter_raw (h : ∀ a ∈ attributes, declared? a.1.toList = none) :
    (attributes.map raw).filter (fun a => (declared? a.key).isNone) = attributes.map raw := by
  rw [List.filter_eq_self]
  intro r hr
  obtain ⟨a, ha, rfl⟩ := List.mem_map.mp hr
  exact Option.isNone_iff_eq_none.mpr (h a ha)

theorem mapM_raw (h : ∀ a ∈ attributes, IsName a.1) :
    (attributes.map raw).mapM (fun a =>
      (unescape? a.value).map fun v => (localName a.key, String.ofList v)) = some attributes := by
  induction attributes with
  | nil => rfl
  | cons a attributes ih =>
    have ha : localName (raw a).key = a.1 := localName_of_isName (h a List.mem_cons_self)
    have hvalue : unescape? (raw a).value = some a.2.toList := unescape?_escape a.2.toList
    rw [List.map_cons, List.mapM_cons, ih fun b hb => h b (List.mem_cons_of_mem a hb), ha, hvalue]
    simp

theorem AreAttributes.declared? (h : AreAttributes attributes) :
    ∀ a ∈ attributes, Markup.declared? a.1.toList = none :=
  fun a ha => declared?_of_isName (h.names a ha).1 (h.names a ha).2

theorem AreAttributes.isKey (h : AreAttributes attributes) : ∀ a ∈ attributes, IsKey a.1 :=
  fun a ha => (h.names a ha).1.isKey

/-- A start tag below the root is read with its attributes and under the declarations in force. -/
theorem openTag?_tagText (ns : Namespace) (hname : IsName name) (h : AreAttributes attributes)
    (hframes : Declares (bindingsOf frames)) :
    openTag? frames (Piece.tagText ⟨ns.fullName name, attributes⟩).toList =
      some (⟨some ns, name, attributes⟩, ⟨(ns.fullName name).toList, bindingsOf frames⟩) := by
  refine openTag?_of_declares hname h.isKey h.distinct (foldlM_declare? _ h.declared?) hframes ?_
  rw [filter_raw h.declared?, mapM_raw fun a ha => (h.names a ha).1]

def rootBindings : Bindings :=
  (Namespace.all.map fun ns => (ns.label.toList, ns.uri.toList)).reverse

theorem declares_rootBindings : Declares rootBindings := by
  intro ns
  cases ns <;> rfl

theorem isKey_declarations : ∀ a ∈ Writer.declarations, IsKey a.1 := by
  unfold IsKey
  decide

/-- No attribute of an element has the name of a declaration, which has a colon. -/
theorem nodup_declarations_append (h : AreAttributes attributes) :
    ((Writer.declarations ++ attributes).map Prod.fst).Nodup := by
  rw [List.map_append, List.nodup_append]
  refine ⟨by decide, h.distinct, ?_⟩
  rintro _ hd s hs rfl
  obtain ⟨a, ha, rfl⟩ := List.mem_map.mp hs
  have hcolon : ∀ n ∈ Writer.declarations.map Prod.fst, ':' ∈ n.toList := by decide
  exact (h.names a ha).1.colon_not_mem (hcolon _ hd)

/-- The start tag of the root declares the namespaces before its own attributes. -/
theorem openTag?_root (hname : IsName name) (h : AreAttributes attributes) :
    openTag? [] (Piece.tagText ⟨ns.fullName name, Writer.declarations ++ attributes⟩).toList =
      some (⟨some ns, name, attributes⟩, ⟨(ns.fullName name).toList, rootBindings⟩) := by
  have hkeys : ∀ a ∈ Writer.declarations ++ attributes, IsKey a.1 := by
    intro a ha
    rcases List.mem_append.mp ha with ha | ha
    · exact isKey_declarations a ha
    · exact h.isKey a ha
  have hfold : (Writer.declarations.map raw).foldlM declare? (bindingsOf []) =
      some rootBindings := by decide
  have hnone : (Writer.declarations.map raw).filter (fun a => (declared? a.key).isNone) = [] := by
    decide
  refine openTag?_of_declares hname hkeys (nodup_declarations_append h) ?_ declares_rootBindings ?_
  · rw [List.map_append, List.foldlM_append, hfold]
    exact foldlM_declare? _ h.declared?
  · rw [List.map_append, List.filter_append, hnone, List.nil_append, filter_raw h.declared?,
      mapM_raw fun a ha => (h.names a ha).1]

end OpenTag

end ObjectTracking.Markup
