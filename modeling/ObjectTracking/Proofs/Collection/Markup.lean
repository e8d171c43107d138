import ObjectTracking.Collection.Markup
import ObjectTracking.Proofs.Composite.Markup
/-!
A collection that was written is read again, item by item. What is read counts as saved.
-/
set_option autoImplicit false

namespace ObjectTracking
open Markup

namespace Collection

def entriesFrom : Nat → List Composite → List Entry
  | _, [] => []
  | n, item :: items => ⟨some n, false, item.attach none⟩ :: entriesFrom (n + 1) items

/-- Items are written as elements in a row and are read from them, after those read before. -/
structure Conveyed (cat : Catalog) (l : LayoutId) (element : String) (items : List Composite)
    (row : Content) : Prop where
  wellFormed : row.WellFormed
  isRow : row.isRow = true
  encoded : encodeItems cat element items = .ofCalls row.calls
  loaded : ∀ (session : Session) (entries : List Entry),
    row.forest.walk (loadItem cat session) { layout := l, element, entries } =
      .done { layout := l, element, entries := entries ++ entriesFrom entries.length items }

variable {cat : Catalog} {l : LayoutId} {element : String} {items : List Composite}

theorem Conveyed.item {row body : Content} {item : Composite}
    (h : Conveyed cat item.layout element items row) (helement : IsName element)
    (hattributes : AreAttributes (item.attributes cat)) (hitem : item.Conveyed cat body)
    (htells : item.Telling cat) :
    Conveyed cat item.layout element (item :: items)
      (.element element (item.attributes cat) body row) := by
  refine ⟨⟨helement, hattributes, hitem.wellFormed, h.wellFormed, h.isRow⟩, rfl, ?_, ?_⟩
  · have hrest := h.encoded
    rw [encodeItems, Encoding.concat] at hrest ⊢
    rw [List.map_cons, List.foldr_cons, hrest, Composite.encode, hitem.encoded,
      Encoding.element_append]
  · intro session entries
    have hrest := h.loaded session (entries ++ [⟨some entries.length, false, item.attach none⟩])
    have hload := hitem.loaded session (Content.tag element (item.attributes cat)) fun _ _ _ => rfl
    rw [Content.tag, Composite.retold_of_telling item htells] at hload
    have hstep : loadItem cat session (Content.tag element (item.attributes cat)) body.forest
        { layout := item.layout, element, entries } =
          .done { layout := item.layout, element,
                  entries := entries ++ [⟨some entries.length, false, item.attach none⟩] } := by
      simp [loadItem, Content.tag, hload, Composite.attach_attach]
    rw [Content.forest, Forest.walk_element_of_done hstep, hrest, Progress.later_done]
    simp [entriesFrom]

theorem conveyed_items (hcat : cat.WellFormed) (helement : IsName element)
    (hitems : ∀ item ∈ items, item.layout = l ∧ item.Fits cat ∧ item.Telling cat) :
    ∃ row, Conveyed cat l element items row := by
  induction items with
  | nil =>
    refine ⟨.nothing, trivial, rfl, rfl, ?_⟩
    intro session entries
    simp [Content.forest, Forest.walk, entriesFrom]
  | cons item items ih =>
    obtain ⟨row, hrow⟩ := ih fun i hi => hitems i (List.mem_cons_of_mem item hi)
    obtain ⟨rfl, hfits, htells⟩ := hitems item List.mem_cons_self
    obtain ⟨body, hbody⟩ := Composite.conveyed hcat item hfits
    exact ⟨_, hrow.item helement (Composite.areAttributes (hcat item.layout)) hbody htells⟩

theorem entriesFrom_eq (n : Nat) (entries : List Entry) :
    entriesFrom n (entries.map Entry.value) =
      (entries.mapIdx fun ix e => { e with origin := some (n + ix), modified := false }).map
        fun e => { e with value := e.value.attach none } := by
  induction entries generalizing n with
  | nil => rfl
  | cons e entries ih => simp [entriesFrom, ih, Nat.add_comm, Nat.add_left_comm]

/-- What is read of a collection is that collection, saved. -/
theorem conveyed (hcat : cat.WellFormed) {c : Collection} (helement : IsName c.element)
    (hfits : c.Fits cat) (htells : ∀ e ∈ c.entries, e.value.Telling cat) :
    ∃ row : Content, row.WellFormed ∧ c.encodeContents cat = .ofCalls row.calls ∧
      ∀ session : Session, (new c.layout c.element).load cat session row.forest =
        .done (c.markSaved.attach none) := by
  have hitems : ∀ item ∈ c.items, item.layout = c.layout ∧ item.Fits cat ∧ item.Telling cat := by
    intro item hitem
    obtain ⟨e, he, rfl⟩ := List.mem_map.mp hitem
    exact ⟨(hfits e he).1, (hfits e he).2, htells e he⟩
  obtain ⟨row, hrow⟩ := conveyed_items hcat helement hitems
  refine ⟨row, hrow.wellFormed, hrow.encoded, ?_⟩
  intro session
  have hload := hrow.loaded session []
  rw [items, List.length_nil, entriesFrom_eq] at hload
  rw [load]
  refine hload.trans ?_
  simp [attach, markSaved]

end Collection

end ObjectTracking
