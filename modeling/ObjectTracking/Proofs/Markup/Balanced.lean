import ObjectTracking.Markup.Reader
/-!
How start tags and end tags of a document belong together. The end tags that are due at a position
are those of the open elements, the innermost one first, and a document that can be read closes its
elements in that order.
-/
set_option autoImplicit false

namespace ObjectTracking.Markup

/-- Nodes in which every element is closed, by an end tag of its own namespace and name. -/
inductive Balanced : List Node → Prop where
  | nil : Balanced []
  | text (s : String) {rest : List Node} (after : Balanced rest) : Balanced (.text s :: rest)
  | element (tag : Tag) {content rest : List Node} (within : Balanced content)
      (after : Balanced rest) :
      Balanced (.opening tag :: (content ++ .closing tag.ns tag.name :: rest))

/-- The end tags of some nodes are those that are due. Elements may be left open. -/
def Nests : List (Option Namespace × String) → List Node → Prop
  | _, [] => True
  | due, .text _ :: rest => Nests due rest
  | due, .opening tag :: rest => Nests ((tag.ns, tag.name) :: due) rest
  | [], .closing _ _ :: _ => False
  | (ns', name') :: due, .closing ns name :: rest => (ns = ns' ∧ name = name') ∧ Nests due rest

section Scan
open Cursor
variable {due : List (Option Namespace × String)} {ns : Option Namespace} {name : String}
variable {nodes rest : List Node} {c : Cursor}

/-- The end of the next element further out is found from the end of the inner one. -/
theorem closing?_succ (depth : Nat) (nodes : List Node) :
    closing? (depth + 1) nodes = (closing? depth nodes).bind fun c => closing? 0 c.rest := by
  fun_induction closing? depth nodes with
  | case1 => rfl
  | case2 _ _ _ ih => exact ih
  | case3 _ _ _ ih => exact ih
  | case4 => rfl
  | case5 _ _ _ _ ih => exact ih

/-- Balanced nodes are passed over at any depth. -/
theorem Balanced.closing? {content : List Node} (h : Balanced content) (depth : Nat)
    (rest : List Node) : Cursor.closing? depth (content ++ rest) = Cursor.closing? depth rest := by
  induction h generalizing depth rest with
  | nil => rfl
  | text s _ ih => exact ih depth rest
  | element tag _ _ ihwithin ihafter =>
    simp only [List.cons_append, List.append_assoc, Cursor.closing?, ihwithin, ihafter]

/-- What stands before the innermost end tag that is due, and what is due after it. -/
theorem Nests.closing (h : Nests ((ns, name) :: due) nodes) (hc : closing? 0 nodes = some c) :
    c.current = some (.closing ns name) ∧ Nests due c.rest ∧
      ∃ content, nodes = content ++ .closing ns name :: c.rest ∧ Balanced content := by
  -- An element splits the nodes twice, at its own end and at the end that is due.
  induction hlength : nodes.length using Nat.strongRecOn generalizing nodes ns name due c with
  | ind n ih =>
    subst hlength
    match nodes with
    | [] => cases hc
    | .text s :: rest =>
      have h : Nests ((ns, name) :: due) rest := h
      have hc : closing? 0 rest = some c := hc
      obtain ⟨hcurrent, hnests, content, hrest, hbalanced⟩ := ih _ (Nat.lt_succ_self _) h hc rfl
      exact ⟨hcurrent, hnests, .text s :: content, by rw [hrest]; rfl, .text s hbalanced⟩
    | .closing ns' name' :: rest =>
      obtain ⟨⟨rfl, rfl⟩, hnests⟩ := h
      obtain rfl := Option.some.inj hc
      exact ⟨rfl, hnests, [], rfl, .nil⟩
    | .opening tag :: rest =>
      have h : Nests ((tag.ns, tag.name) :: (ns, name) :: due) rest := h
      have hc : closing? 1 rest = some c := hc
      rw [closing?_succ, Option.bind_eq_some_iff] at hc
      obtain ⟨c₁, hc₁, hc⟩ := hc
      obtain ⟨-, hnests₁, content₁, hrest₁, hbalanced₁⟩ := ih _ (Nat.lt_succ_self _) h hc₁ rfl
      have hlength := Nat.lt_succ_of_lt (closing?_length hc₁)
      obtain ⟨hcurrent, hnests, content, hrest, hbalanced⟩ := ih _ hlength hnests₁ hc rfl
      refine ⟨hcurrent, hnests, .opening tag :: (content₁ ++ .closing tag.ns tag.name :: content),
        ?_, .element tag hbalanced₁ hbalanced⟩
      rw [hrest₁, hrest]
      simp

theorem Nests.suffix {before : List Node} (h : Nests due (before ++ rest)) :
    ∃ due', Nests due' rest := by
  induction before generalizing due with
  | nil => exact ⟨due, h⟩
  | cons n before ih =>
    cases n with
    | text s => exact ih h
    | opening tag => exact ih h
    | closing ns name =>
      cases due with
      | nil => exact h.elim
      | cons first due => exact ih h.2

end Scan

section Document
variable {due : List (Option Namespace × String)} {nodes : List Node}

theorem Nests.joinText (h : Nests due nodes) : Nests due (joinText nodes) := by
  induction nodes generalizing due with
  | nil => exact h
  | cons n rest ih =>
    cases n with
    | text s =>
      have h : Nests due rest := h
      have hrest := ih h
      unfold Markup.joinText
      split
      · rename_i heq
        rw [heq] at hrest
        exact hrest
      · exact hrest
    | opening tag => exact ih h
    | closing ns name =>
      cases due with
      | nil => exact h.elim
      | cons first due => exact ⟨h.1, ih h.2⟩

theorem Nests.dropLayout (h : Nests due nodes) (afterOpening : Bool) :
    Nests due (dropLayout afterOpening nodes) := by
  induction nodes generalizing due afterOpening with
  | nil => exact h
  | cons n rest ih =>
    cases n with
    | text s =>
      have h : Nests due rest := h
      unfold Markup.dropLayout
      split
      · exact ih h false
      · exact ih h false
    | opening tag => exact ih h true
    | closing ns name =>
      cases due with
      | nil => exact h.elim
      | cons first due => exact ⟨h.1, ih h.2 false⟩

def Frame.fullName (f : Frame) : Option Namespace × String :=
  (resolve f.bindings f.name, localName f.name)

theorem openTag?_fullName {frames : List Frame} {content : List Char} {tag : Tag} {f : Frame}
    (h : openTag? frames content = some (tag, f)) : (tag.ns, tag.name) = f.fullName := by
  simp only [openTag?, Option.bind_eq_bind, Option.bind_eq_some_iff] at h
  obtain ⟨raw, -, h⟩ := h
  split at h
  · cases h
  · simp only [Option.bind_eq_some_iff, Option.some.injEq, Prod.mk.injEq] at h
    obtain ⟨bindings, -, attributes, -, rfl, rfl⟩ := h
    rfl

theorem nodesOf?_nests {frames : List Frame} {ts : List Token}
    (h : nodesOf? frames ts = some nodes) : Nests (frames.map Frame.fullName) nodes := by
  induction ts generalizing frames nodes with
  | nil =>
    obtain rfl := Option.some.inj h
    trivial
  | cons t ts ih =>
    cases t with
    | text raw =>
      simp only [nodesOf?, Option.bind_eq_bind, Option.bind_eq_some_iff, Option.map_eq_map,
        Option.map_eq_some_iff] at h
      obtain ⟨s, -, rest, hrest, rfl⟩ := h
      have hnests := ih hrest
      exact hnests
    | verbatim data =>
      simp only [nodesOf?, Option.map_eq_map, Option.map_eq_some_iff] at h
      obtain ⟨rest, hrest, rfl⟩ := h
      have hnests := ih hrest
      exact hnests
    | opening content isEmpty =>
      simp only [nodesOf?, Option.bind_eq_bind, Option.bind_eq_some_iff] at h
      obtain ⟨⟨tag, f⟩, hopen, h⟩ := h
      have hname := openTag?_fullName hopen
      split at h
      · simp only [Option.map_eq_map, Option.map_eq_some_iff] at h
        obtain ⟨rest, hrest, rfl⟩ := h
        exact ⟨Prod.mk.inj hname.symm, ih hrest⟩
      · simp only [Option.map_eq_map, Option.map_eq_some_iff] at h
        obtain ⟨rest, hrest, rfl⟩ := h
        have hnests := ih hrest
        rw [List.map_cons, ← hname] at hnests
        exact hnests
    | closing content =>
      cases frames with
      | nil => cases h
      | cons f outer =>
        simp only [nodesOf?] at h
        split at h
        · simp only [Option.map_eq_map, Option.map_eq_some_iff] at h
          obtain ⟨rest, hrest, rfl⟩ := h
          exact ⟨⟨rfl, rfl⟩, ih hrest⟩
        · cases h

/-- A document that can be read closes its elements in order. -/
theorem nodes?_nests {xml : String} (h : nodes? xml = some nodes) : Nests [] nodes := by
  simp only [nodes?, Option.bind_eq_bind, Option.bind_eq_some_iff, Option.some.injEq] at h
  obtain ⟨ts, -, ns, hns, rfl⟩ := h
  exact (nodesOf?_nests hns).joinText.dropLayout false

end Document

namespace Cursor
variable {c c' : Cursor}

/-- A cursor on a start tag, and the cursor on the end tag that belongs to it. -/
def ClosedBy (c c' : Cursor) : Prop :=
  ∃ tag content rest, Balanced content ∧
    c = ⟨some (.opening tag), content ++ .closing tag.ns tag.name :: rest⟩ ∧
    c' = ⟨some (.closing tag.ns tag.name), rest⟩

def OnStart (xml : String) (c : Cursor) : Prop :=
  ∃ nodes, nodes? xml = some nodes ∧ c ∈ later nodes ∧ c.tag?.isSome = true

theorem mem_later {nodes : List Node} (h : c ∈ later nodes) :
    ∃ before n, nodes = before ++ n :: c.rest ∧ c.current = some n := by
  induction nodes with
  | nil => cases h
  | cons n rest ih =>
    rcases List.mem_cons.mp h with rfl | h
    · exact ⟨[], n, rfl, rfl⟩
    · obtain ⟨before, m, hrest, hcurrent⟩ := ih h
      exact ⟨n :: before, m, by rw [hrest]; rfl, hcurrent⟩

theorem tag?_isSome : c.tag?.isSome = true ↔ ∃ tag, c.current = some (.opening tag) := by
  unfold tag?
  cases c.current with
  | none => simp
  | some n => cases n <;> simp

theorem ClosedBy.closing? (h : c.ClosedBy c') : closing? 0 c.rest = some c' := by
  obtain ⟨tag, content, rest, hbalanced, rfl, rfl⟩ := h
  exact hbalanced.closing? 0 _

/-- No more than one end tag belongs to a start tag. -/
theorem ClosedBy.unique {c'' : Cursor} (h : c.ClosedBy c') (h' : c.ClosedBy c'') : c' = c'' :=
  Option.some.inj (h.closing?.symm.trans h'.closing?)

/-- In a document, counting start tags and end tags finds the end tag that belongs to a start tag. -/
theorem OnStart.closedBy_iff {xml : String} (h : OnStart xml c) :
    c.ClosedBy c' ↔ Cursor.closing? 0 c.rest = some c' := by
  refine ⟨ClosedBy.closing?, ?_⟩
  intro hc'
  obtain ⟨nodes, hnodes, hmem, htag⟩ := h
  obtain ⟨tag, hcurrent⟩ := tag?_isSome.mp htag
  obtain ⟨before, n, rfl, hn⟩ := mem_later hmem
  obtain rfl := Option.some.inj (hcurrent.symm.trans hn)
  obtain ⟨due, hnests⟩ := (nodes?_nests hnodes).suffix
  obtain ⟨hend, -, content, hrest, hbalanced⟩ := Nests.closing hnests hc'
  obtain ⟨current, rest⟩ := c
  obtain ⟨current', rest'⟩ := c'
  subst hcurrent hend
  exact ⟨tag, content, rest', hbalanced, by rw [← hrest], rfl⟩

end Cursor

end ObjectTracking.Markup
