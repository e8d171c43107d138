import Mathlib.Data.List.Basic
import Mathlib.Data.List.Perm.Basic
import ObjectTracking.Proofs.Edits
/-!
What a collection knows of its own past. The items that it had when it was last loaded or saved are
its baseline. Every edit keeps `Tracks`: the former positions of the items that are left ascend,
together with the removed positions they are all positions of the baseline, and an item that does
not count as modified is still that of the baseline.
-/
set_option autoImplicit false

namespace ObjectTracking

namespace Collection

/-- The former positions of the items that are left of the baseline, in list order. -/
def origins (c : Collection) : List Nat := c.entries.filterMap Entry.origin

def kept (c : Collection) : List Composite :=
  (c.entries.filter (·.origin.isSome)).map Entry.value

/-- The collection keeps track of what happened to its baseline. -/
structure Tracks (base : List Composite) (c : Collection) : Prop where
  ascending : c.origins.Pairwise (· < ·)
  partition : (c.origins ++ c.removed).Perm (List.range base.length)
  unmodified : ∀ e ∈ c.entries, ∀ n, e.origin = some n → e.modified = false →
    base[n]? = some e.value

/-- The collection keeps track of some baseline. -/
def Consistent (c : Collection) : Prop := ∃ base, c.Tracks base

/-- Nothing happened since the collection was loaded or saved. -/
structure Settled (c : Collection) : Prop where
  removed : c.removed = []
  entries : ∀ n (e : Entry), c.entries[n]? = some e → e.origin = some n ∧ e.modified = false

theorem filterMap_insertIdx_of_none {α β : Type} (f : α → Option β) {a : α} (ha : f a = none)
    (l : List α) (n : Nat) : (l.insertIdx n a).filterMap f = l.filterMap f := by
  induction l generalizing n with
  | nil => cases n <;> simp [ha]
  | cons b l ih =>
    cases n with
    | zero => simp [ha]
    | succ n => simp only [List.insertIdx_succ_cons, List.filterMap_cons, ih]

theorem filterMap_set_of_eq {α β : Type} (f : α → Option β) {a b : α} {l : List α} {n : Nat}
    (hn : l[n]? = some a) (hf : f b = f a) : (l.set n b).filterMap f = l.filterMap f := by
  induction l generalizing n with
  | nil => simp at hn
  | cons c l ih =>
    cases n with
    | zero =>
      obtain rfl : c = a := by simpa using hn
      simp [List.filterMap_cons, hf]
    | succ n =>
      simp only [List.set_cons_succ, List.filterMap_cons, ih (by simpa using hn)]

theorem perm_cons_eraseIdx {α : Type} {a : α} {l : List α} {n : Nat} (hn : l[n]? = some a) :
    l.Perm (a :: l.eraseIdx n) := by
  obtain ⟨h, rfl⟩ := List.getElem?_eq_some_iff.mp hn
  exact (List.getElem_cons_eraseIdx_perm h).symm

/-- An edit neither loses nor invents a position of the baseline. -/
theorem Change.tracks {base : List Composite} {c c' : Collection} (h : Change c c')
    (hc : c.Tracks base) : c'.Tracks base := by
  obtain ⟨hasc, hpart, hun⟩ := hc
  cases h with
  | same => exact ⟨hasc, hpart, hun⟩
  | add ix item fits =>
    have ho : (c.entries.insertIdx (min ix c.entries.length)
        ⟨none, false, item.attach c.link⟩).filterMap Entry.origin = c.origins :=
      filterMap_insertIdx_of_none _ rfl _ _
    refine ⟨?_, ?_, ?_⟩
    · simpa only [origins, ho] using hasc
    · simpa only [origins, ho] using hpart
    · intro e he n hn hm
      rcases List.eq_or_mem_of_mem_insertIdx he with rfl | he
      · cases hn
      · exact hun e he n hn hm
  | remove ix e at_ix =>
    have hperm : c.origins.Perm (e.origin.toList ++
        (c.entries.eraseIdx ix).filterMap Entry.origin) := by
      have := (perm_cons_eraseIdx at_ix).filterMap Entry.origin
      cases he : e.origin with
      | none => simpa [origins, he] using this
      | some n => simpa [origins, he] using this
    refine ⟨?_, ?_, ?_⟩
    · exact hasc.sublist ((List.eraseIdx_sublist _ _).filterMap _)
    · refine List.Perm.trans ?_ hpart
      have hswap : (c.removed ++ e.origin.toList).Perm (e.origin.toList ++ c.removed) :=
        List.perm_append_comm
      refine (hswap.append_left _).trans ?_
      rw [← List.append_assoc]
      exact (List.perm_append_comm.trans hperm.symm).append_right _
    · intro e' he'
      exact hun e' (List.mem_of_mem_eraseIdx he')
  | clear =>
    refine ⟨by simp [origins], ?_, by simp⟩
    have hrev : (c.entries.reverse.filterMap Entry.origin).Perm c.origins :=
      (List.reverse_perm c.entries).filterMap _
    simpa [origins] using ((hrev.append_left c.removed).trans List.perm_append_comm).trans hpart
  | modify ix e at_ix v =>
    have ho : (c.entries.set ix { e with modified := true, value := v }).filterMap Entry.origin
        = c.origins := filterMap_set_of_eq _ at_ix rfl
    refine ⟨?_, ?_, ?_⟩
    · simpa only [origins, ho] using hasc
    · simpa only [origins, ho] using hpart
    · intro e' he' n hn hm
      rcases List.mem_or_eq_of_mem_set he' with he' | rfl
      · exact hun e' he' n hn hm
      · cases hm

theorem eq_of_filterMap_nodup {α β : Type} {f : α → Option β} {l : List α}
    (h : (l.filterMap f).Nodup) {a b : α} {x : β} (ha : a ∈ l) (hb : b ∈ l)
    (hfa : f a = some x) (hfb : f b = some x) : a = b := by
  induction l with
  | nil => cases ha
  | cons c l ih =>
    have htail : (l.filterMap f).Nodup :=
      h.sublist ((List.sublist_cons_self c l).filterMap f)
    have hhead : f c = some x → x ∉ l.filterMap f := by
      intro hc
      rw [List.filterMap_cons_some hc] at h
      exact (List.nodup_cons.mp h).1
    rcases List.mem_cons.mp ha with rfl | ha' <;> rcases List.mem_cons.mp hb with rfl | hb'
    · rfl
    · exact absurd (List.mem_filterMap.mpr ⟨b, hb', hfb⟩) (hhead hfa)
    · exact absurd (List.mem_filterMap.mpr ⟨a, ha', hfa⟩) (hhead hfb)
    · exact ih htail ha' hb'

/-- No two items have the same former position. -/
theorem Tracks.entry_unique {base : List Composite} {c : Collection} (hc : c.Tracks base)
    {e e' : Entry} {n : Nat} (he : e ∈ c.entries) (he' : e' ∈ c.entries)
    (ho : e.origin = some n) (ho' : e'.origin = some n) : e = e' :=
  eq_of_filterMap_nodup (hc.ascending.imp Nat.ne_of_lt) he he' ho ho'

/-- What is left of the baseline is what was not removed from it. -/
theorem Tracks.origins_eq {base : List Composite} {c : Collection} (hc : c.Tracks base) :
    c.origins = (List.range base.length).filter (!c.removed.contains ·) := by
  have hnodup : (c.origins ++ c.removed).Nodup := hc.partition.nodup_iff.mpr List.nodup_range
  have hkept : (c.origins ++ c.removed).filter (!c.removed.contains ·) = c.origins := by
    rw [List.filter_append, List.filter_eq_self.mpr, List.filter_eq_nil_iff.mpr, List.append_nil]
    · intro n hn
      simpa using hn
    · intro n hn
      simpa using fun hr => (List.nodup_append.mp hnodup).2.2 n hn n hr rfl
  have hp : c.origins.Perm ((List.range base.length).filter (!c.removed.contains ·)) := by
    simpa only [hkept] using hc.partition.filter (!c.removed.contains ·)
  exact hp.eq_of_pairwise (fun a b _ _ hab hba => absurd hab (Nat.lt_asymm hba)) hc.ascending
    (List.pairwise_lt_range.filter _)

theorem map_eq_map_some_filterMap {α β : Type} {f : α → Option β} {l : List α}
    (h : ∀ a ∈ l, (f a).isSome) : l.map f = (l.filterMap f).map some := by
  induction l with
  | nil => rfl
  | cons a l ih =>
    obtain ⟨b, hb⟩ := Option.isSome_iff_exists.mp (h a List.mem_cons_self)
    simp [hb, ih fun x hx => h x (List.mem_cons_of_mem a hx)]

theorem Settled.map_origin {c : Collection} (h : c.Settled) :
    c.entries.map Entry.origin = (List.range c.entries.length).map some := by
  apply List.ext_getElem (by simp)
  intro n hn _
  simp only [List.length_map] at hn
  simpa using (h.entries n _ (List.getElem?_eq_getElem hn)).1

theorem Settled.origins {c : Collection} (h : c.Settled) :
    c.origins = List.range c.entries.length := by
  have ho : c.origins = (c.entries.map Entry.origin).filterMap id := by
    simp [Collection.origins, List.filterMap_map]
  rw [ho, h.map_origin]
  simp [List.filterMap_map]

/-- What was just saved or loaded is its own baseline. -/
theorem Settled.tracks {c : Collection} (h : c.Settled) : c.Tracks c.items := by
  refine ⟨?_, ?_, ?_⟩
  · rw [h.origins]
    exact List.pairwise_lt_range
  · simp [h.origins, h.removed, items]
  · intro e he n hn _
    obtain ⟨m, hm⟩ := List.mem_iff_getElem?.mp he
    obtain rfl : n = m := by simpa [hn] using (h.entries m e hm).1
    simp [items, hm]

theorem Settled.hasChanges {c : Collection} (h : c.Settled) : c.hasChanges = false := by
  simp only [Collection.hasChanges, h.removed, List.isEmpty_nil, Bool.not_true, Bool.false_or,
    List.any_eq_false]
  intro e he
  obtain ⟨n, hn⟩ := List.mem_iff_getElem?.mp he
  obtain ⟨ho, hm⟩ := h.entries n e hn
  simp [ho, hm]

theorem Settled.attach {c : Collection} (h : c.Settled) (k : Option Link) : (c.attach k).Settled := by
  refine ⟨h.removed, ?_⟩
  intro n e he
  simp only [Collection.attach, List.getElem?_map, Option.map_eq_some_iff] at he
  obtain ⟨e', he', rfl⟩ := he
  exact h.entries n e' he'

theorem markSaved_settled (c : Collection) : c.markSaved.Settled := by
  refine ⟨rfl, ?_⟩
  intro n e he
  simp only [markSaved, List.getElem?_mapIdx, Option.map_eq_some_iff] at he
  obtain ⟨_, _, rfl⟩ := he
  exact ⟨rfl, rfl⟩

@[simp] theorem items_markSaved (c : Collection) : c.markSaved.items = c.items := by
  apply List.ext_getElem?
  intro n
  cases h : c.entries[n]? <;> simp [items, markSaved, h]

/-- A collection without changes is as it was loaded or saved. -/
theorem Tracks.settled {base : List Composite} {c : Collection} (hc : c.Tracks base)
    (h : c.hasChanges = false) : c.Settled := by
  simp only [Collection.hasChanges, Bool.or_eq_false_iff, Bool.not_eq_false', List.isEmpty_iff,
    List.any_eq_false, Bool.or_eq_true, Option.isNone_iff_eq_none, not_or,
    Bool.not_eq_true] at h
  obtain ⟨hrem, hent⟩ := h
  have ho : c.origins = List.range base.length := by
    have hp : c.origins.Perm (List.range base.length) := by simpa [hrem] using hc.partition
    exact hp.eq_of_pairwise (fun a b _ _ hab hba => absurd hab (Nat.lt_asymm hba)) hc.ascending
      List.pairwise_lt_range
  have hmap : c.entries.map Entry.origin = (List.range base.length).map some := by
    rw [← ho]
    exact map_eq_map_some_filterMap fun e he => Option.isSome_iff_ne_none.mpr (hent e he).1
  refine ⟨hrem, ?_⟩
  intro n e he
  refine ⟨?_, (hent e (List.mem_of_getElem? he)).2⟩
  have hn : (c.entries.map Entry.origin)[n]? = some e.origin := by simp [he]
  rw [hmap, List.getElem?_map, Option.map_eq_some_iff] at hn
  obtain ⟨m, hm, heq⟩ := hn
  obtain ⟨_, rfl⟩ := List.getElem?_eq_some_iff.mp hm
  simpa using heq.symm

theorem perform_tracks (cat : Catalog) (edit : CollectionEdit) {base : List Composite}
    {c : Collection} (hc : c.Tracks base) : (c.perform cat edit).state.Tracks base :=
  (perform_change cat edit c).tracks hc

/-- Links are no part of what a collection keeps track of. -/
theorem Tracks.mapValue {base : List Composite} {c : Collection} (hc : c.Tracks base)
    (f : Composite → Composite) (k : Option Link) :
    ({ c with
      entries := c.entries.map fun e => { e with value := f e.value }, link := k } :
        Collection).Tracks (base.map f) := by
  have ho : (c.entries.map fun e => ({ e with value := f e.value } : Entry)).filterMap
      Entry.origin = c.origins := by
    simp [origins, List.filterMap_map]
  refine ⟨?_, ?_, ?_⟩
  · simpa only [origins, ho] using hc.ascending
  · simpa only [origins, ho, List.length_map] using hc.partition
  · intro e he n hn hm
    obtain ⟨e', he', rfl⟩ := List.mem_map.mp he
    simp [hc.unmodified e' he' n hn hm]

theorem Settled.consistent {c : Collection} (h : c.Settled) : c.Consistent := ⟨c.items, h.tracks⟩

theorem markSaved_consistent (c : Collection) : c.markSaved.Consistent :=
  (markSaved_settled c).consistent

theorem new_consistent (layout : LayoutId) (element : String) :
    (new layout element).Consistent :=
  Settled.consistent ⟨rfl, by simp [new]⟩

theorem Consistent.attach {c : Collection} (h : c.Consistent) (k : Option Link) :
    (c.attach k).Consistent := by
  obtain ⟨base, hc⟩ := h
  exact ⟨_, hc.mapValue (Composite.attach k) k⟩

theorem Consistent.copy {c : Collection} (h : c.Consistent) : c.copy.Consistent := by
  obtain ⟨base, hc⟩ := h
  exact ⟨_, hc.mapValue Composite.copy c.link⟩

theorem Consistent.perform {c : Collection} (h : c.Consistent) (cat : Catalog)
    (edit : CollectionEdit) : (c.perform cat edit).state.Consistent := by
  obtain ⟨base, hc⟩ := h
  exact ⟨base, perform_tracks cat edit hc⟩

section Positions
variable {base : List Composite} {c : Collection}

theorem Tracks.nodup (hc : c.Tracks base) : (c.origins ++ c.removed).Nodup :=
  hc.partition.nodup_iff.mpr List.nodup_range

theorem Tracks.removedPositions_ascending (hc : c.Tracks base) :
    c.removedPositions.Pairwise (· < ·) := by
  have hle : c.removedPositions.Pairwise (· ≤ ·) := by
    have htrans : ∀ a b d : Nat, decide (a ≤ b) = true → decide (b ≤ d) = true →
        decide (a ≤ d) = true := by
      simp only [decide_eq_true_eq]
      omega
    have htotal : ∀ a b : Nat, (decide (a ≤ b) || decide (b ≤ a)) = true := by
      simp only [Bool.or_eq_true, decide_eq_true_eq]
      omega
    simpa [removedPositions] using List.pairwise_mergeSort htrans htotal c.removed
  have hnodup : c.removedPositions.Nodup :=
    (List.mergeSort_perm _ _).nodup_iff.mpr (List.nodup_append.mp hc.nodup).2.1
  exact hle.imp₂ (fun a b hab hne => Nat.lt_of_le_of_ne hab hne) hnodup

theorem modified_positions (c : Collection) :
    c.modified.map Prod.fst = (c.entries.filter Entry.modified).filterMap Entry.origin := by
  simp only [modified, List.map_filterMap, Option.map_map]
  congr 1
  funext e
  cases e.origin <;> rfl

theorem modified_positions_sublist (c : Collection) :
    (c.modified.map Prod.fst).Sublist c.origins := by
  rw [modified_positions]
  exact List.filter_sublist.filterMap _

theorem Tracks.modified_ascending (hc : c.Tracks base) :
    (c.modified.map Prod.fst).Pairwise (· < ·) :=
  hc.ascending.sublist (modified_positions_sublist c)

/-- No position is both removed and changed. -/
theorem Tracks.disjoint (hc : c.Tracks base) :
    List.Disjoint c.removedPositions (c.modified.map Prod.fst) := by
  intro n hremoved hmodified
  have ho : n ∈ c.origins := (modified_positions_sublist c).subset hmodified
  have hr : n ∈ c.removed := (List.mergeSort_perm _ _).mem_iff.mp hremoved
  exact (List.nodup_append.mp hc.nodup).2.2 n ho n hr rfl

end Positions

end Collection

end ObjectTracking
