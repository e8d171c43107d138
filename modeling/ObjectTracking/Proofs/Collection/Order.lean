import ObjectTracking.Proofs.Collection.Tracking
/-!
Collections to which items are only added at the end: what was added stands after everything that
was there before.
-/
set_option autoImplicit false
namespace ObjectTracking

/-- An edit that adds nothing before another item. -/
def CollectionEdit.AddsLast : CollectionEdit → Prop
  | .insert .. => False
  | _ => True

namespace Collection

/-- What was added stands after what was there before. -/
def Ordered (c : Collection) : Prop :=
  (c.entries.map Entry.origin).Pairwise fun a b => a = none → b = none

theorem eq_filter_append_filter {es : List Entry}
    (h : (es.map Entry.origin).Pairwise fun a b => a = none → b = none) :
    es = es.filter (·.origin.isSome) ++ es.filter (·.origin.isNone) := by
  induction es with
  | nil => rfl
  | cons e es ih =>
    obtain ⟨hhead, htail⟩ := List.pairwise_cons.mp h
    cases ho : e.origin with
    | some n => simpa [ho] using ih htail
    | none =>
      have hnone : ∀ x ∈ es, x.origin = none :=
        fun x hx => hhead x.origin (List.mem_map_of_mem hx) ho
      have hsome : es.filter (·.origin.isSome) = [] := by
        rw [List.filter_eq_nil_iff]
        intro x hx
        simp [hnone x hx]
      have hall : es.filter (·.origin.isNone) = es := by
        rw [List.filter_eq_self]
        intro x hx
        simp [hnone x hx]
      simp [ho, hsome, hall]

theorem Ordered.items_eq {c : Collection} (h : c.Ordered) : c.items = c.kept ++ c.added := by
  rw [items, kept, added, ← List.map_append, ← eq_filter_append_filter h]

theorem Settled.ordered {c : Collection} (h : c.Settled) : c.Ordered := by
  rw [Ordered, h.map_origin, List.pairwise_map]
  exact List.pairwise_lt_range.imp fun _ h => nomatch h

theorem Ordered.perform {c : Collection} (h : c.Ordered) (cat : Catalog) {edit : CollectionEdit}
    (he : edit.AddsLast) : (c.perform cat edit).state.Ordered := by
  cases edit with
  | touch => exact h
  | insert => exact he.elim
  | push item =>
    by_cases hl : item.layout = c.layout
    · simp only [Collection.perform, push, insert, check, hl, if_true, Edited.state_done, Ordered,
        Nat.min_self, List.insertIdx_length_self, List.map_append, List.map_cons, List.map_nil]
      rw [List.pairwise_append]
      exact ⟨h, List.pairwise_singleton _ _, by simp⟩
    · simpa [Collection.perform, push, insert, check, hl] using h
  | remove ix =>
    cases hix : c.entries[ix]? with
    | none => simpa [Collection.perform, remove, hix] using h
    | some e =>
      simp only [Collection.perform, remove, hix, Edited.state_map, Edited.state_done, Ordered]
      exact List.Pairwise.sublist ((List.eraseIdx_sublist _ _).map _) h
  | clear => simp [Collection.perform, clear, Ordered]
  | item ix edit =>
    cases hix : c.entries[ix]? with
    | none => simpa [Collection.perform, editItem?, hix] using h
    | some e =>
      have ho := filterMap_set_of_eq (fun e : Entry => some e.origin) hix
        (b := { e with modified := true, value := (Composite.perform cat edit e.value).state }) rfl
      simp only [List.filterMap_eq_map'] at ho
      simpa [Collection.perform, editItem?, hix, Ordered, ho] using h

end Collection

end ObjectTracking
