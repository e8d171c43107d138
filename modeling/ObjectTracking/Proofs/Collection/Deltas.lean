import ObjectTracking.Proofs.Collection.Server
import ObjectTracking.Proofs.LocalCopy.Load
import ObjectTracking.Proofs.Mail
/-!
The deltas of a collection account for its change. Whatever was done to a collection since it was
created, read or saved, the items it had then and what it reports as added, removed and changed are
together all there is to know: each item is of one kind, and what is of no kind is as it was.
-/
set_option autoImplicit false

namespace ObjectTracking

/-- A list that is made of two by taking from one or the other, each in its own order. -/
inductive Interleaves {α : Type} : List α → List α → List α → Prop where
  | nil : Interleaves [] [] []
  | left (a : α) {as bs l : List α} (rest : Interleaves as bs l) : Interleaves (a :: as) bs (a :: l)
  | right (b : α) {as bs l : List α} (rest : Interleaves as bs l) : Interleaves as (b :: bs) (b :: l)

namespace Collection
variable {cat : Catalog} {base : List Composite} {c c' : Collection}

/-- A collection at the moment from which it keeps track: it was created, read or saved, and perhaps
handed to an owner. -/
inductive Begins (cat : Catalog) : Collection → Prop where
  | created (layout : LayoutId) (element : String) : Begins cat (new layout element)
  | loaded (session : Session) (content : Markup.Forest) (c : Collection) :
    Begins cat (c.load cat session content).state
  | saved (c : Collection) : Begins cat c.markSaved
  | attached {c : Collection} (k : Option Link) (begins : Begins cat c) : Begins cat (c.attach k)

/-- What a caller can make of a collection. An item that was reached may be edited in any way. -/
inductive Becomes (cat : Catalog) (c : Collection) : Collection → Prop where
  | same : Becomes cat c c
  | push {c' : Collection} (before : Becomes cat c c') (item : Composite) :
    Becomes cat c (c'.push cat item).state
  | insert {c' : Collection} (before : Becomes cat c c') (ix : Nat) (item : Composite) :
    Becomes cat c (c'.insert cat ix item).state
  | remove {c' : Collection} (before : Becomes cat c c') (ix : Nat) :
    Becomes cat c (c'.remove ix).state
  | clear {c' : Collection} (before : Becomes cat c c') : Becomes cat c c'.clear.state
  | editItem {c' : Collection} (before : Becomes cat c c') (ix : Nat) {α : Type}
      (edit : Composite → Edited Composite α) {e : Edited Collection α}
      (reached : c'.editItem? ix edit = some e) : Becomes cat c e.state

/-- The items that are left of the baseline, in list order, each with its former position. -/
def placed (c : Collection) : List (Nat × Composite) :=
  c.entries.filterMap fun e => e.origin.map (·, e.value)

/-- What a collection reports of its change since it had the items of a baseline. -/
structure Explains (base : List Composite) (c : Collection) : Prop where
  /-- The items that are left stand in the order they had. -/
  ascending : (c.placed.map Prod.fst).Pairwise (· < ·)
  removed_ascending : c.removedPositions.Pairwise (· < ·)
  /-- Every former position is that of one item that is left, or it is removed. -/
  partition : (c.placed.map Prod.fst ++ c.removedPositions).Perm (List.range base.length)
  /-- The current items are those added and those that are left. -/
  items : Interleaves c.added (c.placed.map Prod.snd) c.items
  remaining : c.placed.map Prod.fst =
    (List.range base.length).filter (!c.removedPositions.contains ·)
  /-- An item that is left and not reported as changed is as it was. -/
  unmodified : ∀ n item, (n, item) ∈ c.placed → n ∉ c.modified.map Prod.fst →
    base[n]? = some item
  /-- Only items that are left are reported as changed. -/
  modified : c.modified.Sublist c.placed
  unchanged : c.hasChanges = false → c.items = base

theorem map_fst_placed (c : Collection) : c.placed.map Prod.fst = c.origins := by
  simp only [placed, origins, List.map_filterMap, Option.map_map]
  congr 1
  funext e
  cases e.origin <;> rfl

theorem mem_placed_iff {n : Nat} {item : Composite} :
    (n, item) ∈ c.placed ↔ ∃ e ∈ c.entries, e.origin = some n ∧ e.value = item := by
  simp [placed, Option.map_eq_some_iff]

theorem modified_sublist_placed (c : Collection) : c.modified.Sublist c.placed :=
  List.filter_sublist.filterMap _

theorem interleaves_items (c : Collection) :
    Interleaves c.added (c.placed.map Prod.snd) c.items := by
  unfold added placed items
  induction c.entries with
  | nil => exact .nil
  | cons e es ih =>
    cases ho : e.origin with
    | none => simpa [ho] using Interleaves.left e.value ih
    | some n => simpa [ho] using Interleaves.right e.value ih

theorem Settled.items_eq (h : c.Settled) (hc : c.Tracks base) : c.items = base := by
  have hlength : c.items.length = base.length := by
    have hperm := hc.partition.length_eq
    simpa [h.origins, h.removed, items] using hperm
  apply List.ext_getElem?
  intro n
  cases hn : c.entries[n]? with
  | none =>
    have hle : c.entries.length ≤ n := List.getElem?_eq_none_iff.mp hn
    have hbase : base[n]? = none := by
      rw [List.getElem?_eq_none_iff, ← hlength]
      simpa [items] using hle
    simp [items, hn, hbase]
  | some e =>
    obtain ⟨ho, hm⟩ := h.entries n e hn
    rw [hc.unmodified e (List.mem_of_getElem? hn) n ho hm]
    simp [items, hn]

/-- A collection that keeps track of a baseline explains how it came from it. -/
theorem Tracks.explains (hc : c.Tracks base) : c.Explains base where
  ascending := by
    rw [map_fst_placed]
    exact hc.ascending
  removed_ascending := hc.removedPositions_ascending
  partition := by
    rw [map_fst_placed]
    have hsort : c.removedPositions.Perm c.removed := List.mergeSort_perm _ _
    exact (hsort.append_left c.origins).trans hc.partition
  items := interleaves_items c
  remaining := by
    rw [map_fst_placed, hc.origins_eq]
    congr 1
    funext n
    simp
  unmodified := by
    intro n item hmem hn
    obtain ⟨e, he, ho, rfl⟩ := mem_placed_iff.mp hmem
    refine hc.unmodified e he n ho ?_
    rw [Bool.eq_false_iff]
    intro hm
    exact hn (List.mem_map.mpr ⟨(n, e.value), mem_modified_iff.mpr ⟨e, he, hm, ho, rfl⟩, rfl⟩)
  modified := modified_sublist_placed c
  unchanged := fun h => (hc.settled h).items_eq hc

theorem Begins.settled (h : Begins cat c) : c.Settled := by
  induction h with
  | created layout element => exact ⟨rfl, by simp [new]⟩
  | loaded session content c => exact load_settled cat session content c
  | saved c => exact markSaved_settled c
  | attached k _ ih => exact ih.attach k

/-- No call loses the baseline. -/
theorem Becomes.tracks (h : Becomes cat c c') (hc : c.Tracks base) : c'.Tracks base := by
  induction h with
  | same => exact hc
  | push _ item ih => exact perform_tracks cat (.push item) ih
  | insert _ ix item ih => exact perform_tracks cat (.insert ix item) ih
  | remove _ ix ih => exact perform_tracks cat (.remove ix) ih
  | clear _ ih => exact perform_tracks cat .clear ih
  | editItem _ _ _ reached ih =>
    obtain ⟨e, he, rfl⟩ := Option.map_eq_some_iff.mp reached
    exact (Change.modify _ e he _).tracks ih

/-- Whatever was done to a collection since it was created, read or saved, its deltas explain it. -/
theorem explains_of_becomes (hbegins : Begins cat c) (h : Becomes cat c c') :
    c'.Explains c.items :=
  (h.tracks hbegins.settled.tracks).explains

def invited : Collection :=
  markSaved { layout := Mail.attendee, element := "Attendee", entries :=
    ["Accept", "Decline", "Tentative"].map fun response => ⟨none, false, Mail.invitee response⟩ }

/-- Somebody is put before three people invited, the second of whom is taken off. -/
def reinvited : Collection :=
  ((invited.insert (Mail.catalog []) 0 (Mail.invitee "Unknown")).state.remove 2).state

def decline (item : Composite) : Edited Composite Unit :=
  item.set (Mail.catalog []) "ResponseType" (.scalar (.name "Decline"))

theorem reinvited_explains : ∃ e, reinvited.editItem? 1 decline = some e ∧
    Begins (Mail.catalog []) invited ∧ Becomes (Mail.catalog []) invited e.state ∧
    e.state.Explains invited.items ∧ e.state.removedPositions = [1] ∧
    e.state.modified.map Prod.fst = [0] ∧ e.state.added = [Mail.invitee "Unknown"] := by
  have hbegins : Begins (Mail.catalog []) invited := .saved _
  have hbecomes : Becomes (Mail.catalog []) invited reinvited := (Becomes.same.insert 0 _).remove 2
  refine ⟨_, rfl, hbegins, hbecomes.editItem 1 decline rfl, ?_, ?_, by decide, rfl⟩
  · exact explains_of_becomes hbegins (hbecomes.editItem 1 decline rfl)
  · exact List.mergeSort_singleton 1

end Collection

end ObjectTracking
