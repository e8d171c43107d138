import Mathlib.Data.List.Induction
import ObjectTracking.Proofs.Collection.Order
import ObjectTracking.Proofs.Collection.Server
import ObjectTracking.Proofs.LocalCopy.Sound
import ObjectTracking.Proofs.Mail
/-!
A collection and the server's copy of it through rounds of edits, each ended by a save. What was
added is sent to the end of the server's copy, wherever it stands in the collection; so the two stay
in step exactly as long as at each save the additions stand last.
-/
set_option autoImplicit false

namespace ObjectTracking
open Markup

/-- A local copy, and what the server has of one of its collections. -/
structure Synced where
  copy : LocalCopy
  server : List Composite

namespace LocalCopy

def editAll (cat : Catalog) (o : LocalCopy) (p : Property) (edits : List CollectionEdit) :
    LocalCopy :=
  o.run cat (edits.map fun e => .edit p (.collection e))

end LocalCopy

namespace Synced

/-- Some edits and a save: the server executes what is sent for the copy. -/
def round (cat : Catalog) (p : Property) (s : Synced) (edits : List CollectionEdit) : Synced :=
  let o := s.copy.editAll cat p edits
  ⟨o.markSaved, UpdateOp.execute s.server o.payload⟩

/-- The copies after some rounds. -/
def rounds (cat : Catalog) (p : Property) (s : Synced) (rs : List (List CollectionEdit)) : Synced :=
  rs.foldl (round cat p) s

/-- The server has the items that the slot holds. -/
def InStep (slot : Nat) (s : Synced) : Prop :=
  ∃ c, s.copy.values.get? slot = some (.collection c) ∧ s.server = c.items

end Synced

namespace LocalCopy
variable {cat : Catalog} {o o' : LocalCopy} {p q : Property} {slot : Nat} {base : List Composite}

/-- In the collection of a slot, what was added stands after what was there before. -/
def AdditionsLast (slot : Nat) (o : LocalCopy) : Prop :=
  ∀ c, o.values.get? slot = some (.collection c) → c.items = c.kept ++ c.added

/-- Nothing but the collection of one slot was changed, and that item by item since it was the
baseline. -/
structure Editing (slot : Nat) (q : Property) (base : List Composite) (o : LocalCopy) : Prop where
  property : o.type.property? slot = some q
  applicable : q.isApplicable o.version = true
  itemLevel : q.has .itemLevel o.version = true
  appendable : q.has .appendable o.version = true
  assigned : o.assigned = ∅
  deleted : o.deleted = ∅
  touched : ∀ n, n ≠ slot → o.touched.contains n = false
  held : ∃ c, o.values.get? slot = some (.collection c) ∧ c.attach (some (o.link slot)) = c ∧
    c.Tracks base ∧ (o.touched.contains slot = false → c.hasChanges = false)

/-- An edit of a collection either fails or edits what the slot holds. -/
theorem edit_collection_state (cat : Catalog) (hp : o.type.slotOf? p = some slot) {c : Collection}
    (hc : o.values.get? slot = some (.collection c)) (e : CollectionEdit) :
    (o.edit cat p (.collection e)).state = o ∨ (o.edit cat p (.collection e)).state =
      (o.storeEdited slot ((c.perform cat e).within [] .collection)).state := by
  rcases edit_eq cat o p (.collection e) with
    ⟨f, _, hedit⟩ | ⟨slot', q', o', hi, hcase⟩
  · exact .inl (by rw [hedit, Edited.state_failed])
  obtain ⟨hr, _, hsame⟩ := instantiate_eq_ok hi
  obtain rfl : slot = slot' := Option.some.inj (hp.symm.trans (resolve_eq_ok_iff.mp hr).1)
  have ho : o' = o := by
    rcases hsame with ⟨_, ho⟩ | ⟨v, hnone, _⟩
    · exact ho
    · rw [hc] at hnone
      cases hnone
  subst ho
  rcases hcase with ⟨v, r, hv, hperform, hedit⟩ | ⟨_, f, hedit⟩
  · obtain rfl : Value.collection c = v := Option.some.inj (hc.symm.trans hv)
    obtain rfl := Option.some.inj hperform
    exact .inr (by rw [hedit])
  · exact .inl (by rw [hedit, Edited.state_failed])

theorem Editing.edit (h : Editing slot q base o) (hp : o.type.slotOf? p = some slot)
    (e : CollectionEdit) : Editing slot q base (o.edit cat p (.collection e)).state := by
  obtain ⟨c, hc, hattach, htracks, hclean⟩ := h.held
  rcases edit_collection_state cat hp hc e with hstate | hstate
  · rw [hstate]
    exact h
  have hvalue : (Value.collection c).attach (o.link slot) = .collection c := by
    simp [Value.attach, hattach]
  have hperform : (Value.collection c).perform cat (.collection e) =
      some ((c.perform cat e).within [] .collection) := rfl
  have htouched := contains_touched_storeEdited hvalue hperform
  rw [hstate]
  refine ⟨h.property, h.applicable, h.itemLevel, h.appendable, h.assigned, h.deleted, ?_, ?_⟩
  · intro n hn
    rw [Bool.eq_false_iff, Ne, htouched n]
    simp [h.touched n hn, hn]
  · refine ⟨_, by simp, ?_, Collection.perform_tracks cat e htracks, ?_⟩
    · exact Collection.perform_attach cat e hattach
    · intro hn
      rw [Bool.eq_false_iff, Ne, htouched slot] at hn
      have hchanges : c.changes e = false := by
        cases hchanges : c.changes e with
        | false => rfl
        | true => exact absurd (.inr ⟨rfl, hchanges⟩) hn
      rw [Collection.perform_unchanged cat hchanges]
      exact hclean (by simpa using fun ht => hn (.inl ht))

theorem Editing.editAll (cat : Catalog) (h : Editing slot q base o)
    (hp : o.type.slotOf? p = some slot) (edits : List CollectionEdit) :
    Editing slot q base (o.editAll cat p edits) ∧
      (o.editAll cat p edits).type.slotOf? p = some slot := by
  refine run_induction cat
    (P := fun o' => Editing slot q base o' ∧ o'.type.slotOf? p = some slot) ⟨h, hp⟩ ?_
  rintro o' op hop ⟨h', hp'⟩
  obtain ⟨e, _, rfl⟩ := List.mem_map.mp hop
  have htype := (perform_outcome cat o' (.edit p (.collection e))).same.2.1
  exact ⟨h'.edit hp' e, by rw [htype, hp']⟩

theorem flatMap_zipIdx_of_single {α β : Type} {l : List α} {f : α × Nat → List β} {k n : Nat} {a : α}
    (hn : l[n]? = some a) (hf : ∀ b m, m ≠ k + n → f (b, m) = []) :
    (l.zipIdx k).flatMap f = f (a, k + n) := by
  induction l generalizing k n with
  | nil => cases hn
  | cons b l ih =>
    rw [List.zipIdx_cons, List.flatMap_cons]
    cases n with
    | zero =>
      obtain rfl : b = a := by simpa using hn
      have hrest : (l.zipIdx (k + 1)).flatMap f = [] := by
        rw [List.flatMap_eq_nil_iff]
        rintro ⟨b, m⟩ hm
        have hle := List.le_snd_of_mem_zipIdx hm
        exact hf b m (by simp only at hle; omega)
      rw [hrest, List.append_nil, Nat.add_zero]
    | succ n =>
      have hhead : f (b, k) = [] := hf b k (by omega)
      rw [hhead, List.nil_append, ih (k := k + 1) (n := n) (by simpa using hn)]
      · rw [Nat.add_assoc, Nat.add_comm 1]
      · intro b m hm
        exact hf b m (by omega)

theorem Editing.payload_eq (h : Editing slot q base o) : o.payload = o.slotOps slot q := by
  have hsingle := flatMap_zipIdx_of_single (l := o.type.properties) (k := 0) (n := slot) (a := q)
    (f := fun x => o.slotOps x.2 x.1) h.property ?_
  · simpa [payload] using hsingle
  · intro r n hn
    have hn' : n ≠ slot := by simpa using hn
    simp [slotOps, h.assigned, h.deleted, h.touched n hn']

/-- What the server makes of its copy when a collection is saved that is changed item by item. -/
theorem Editing.execute (h : Editing slot q base o) {c : Collection}
    (hc : o.values.get? slot = some (.collection c)) :
    UpdateOp.execute base o.payload = c.kept ++ c.added := by
  obtain ⟨d, hd, _, htracks, hclean⟩ := h.held
  obtain rfl : d = c := by simpa using hd.symm.trans hc
  rw [← htracks.execute_itemOps q, h.payload_eq]
  cases ht : o.touched.contains slot with
  | true =>
    simp [slotOps, h.applicable, h.deleted, h.assigned, ht, hc, sendsItems, h.itemLevel,
      h.appendable]
  | false =>
    -- an untouched collection sends nothing and has nothing to send
    have hops : itemOps q d = [] := itemOps_of_unchanged (hclean ht) q
    simp [slotOps, h.applicable, h.deleted, h.assigned, ht, hops]

theorem Editing.markSaved (h : Editing slot q base o) {c : Collection}
    (hc : o.values.get? slot = some (.collection c)) :
    Editing slot q c.items o.markSaved := by
  obtain ⟨d, hd, hattach, _, _⟩ := h.held
  obtain rfl : d = c := by simpa using hd.symm.trans hc
  refine ⟨h.property, h.applicable, h.itemLevel, h.appendable, rfl, rfl, ?_, d.markSaved, ?_, ?_,
    ?_, ?_⟩
  · simp [LocalCopy.markSaved]
  · simp [LocalCopy.markSaved, hc, settled]
  · simpa [settled, Value.attach, LocalCopy.link, LocalCopy.markSaved] using
      attach_settled (.collection d) (o.link slot) (by simp [Value.attach, hattach])
  · simpa using (Collection.markSaved_settled d).tracks
  · exact fun _ => (Collection.markSaved_settled d).hasChanges

end LocalCopy

namespace Synced
open LocalCopy
variable {cat : Catalog} {p q : Property} {slot : Nat} {s : Synced}

/-- The collection of the slot has just been loaded or saved. -/
def Fresh (p : Property) (slot : Nat) (q : Property) (s : Synced) : Prop :=
  s.copy.type.slotOf? p = some slot ∧
    ∃ c, s.copy.values.get? slot = some (.collection c) ∧ c.Settled ∧
      Editing slot q c.items s.copy

theorem Fresh.round (cat : Catalog) (h : Fresh p slot q s) (edits : List CollectionEdit) :
    Fresh p slot q (s.round cat p edits) := by
  obtain ⟨hp, c, _, _, hediting⟩ := h
  obtain ⟨hediting', hp'⟩ := hediting.editAll cat hp edits
  obtain ⟨d, hd, _⟩ := hediting'.held
  have hsaved := hediting'.markSaved hd
  refine ⟨hp', d.markSaved, ?_, Collection.markSaved_settled d, ?_⟩
  · simp [Synced.round, LocalCopy.markSaved, hd, settled]
  · rw [Collection.items_markSaved]
    exact hsaved

/-- A save keeps the server in step exactly when the additions stand last. -/
theorem Fresh.round_inStep (h : Fresh p slot q s) (hs : InStep slot s)
    (edits : List CollectionEdit) :
    InStep slot (s.round cat p edits) ↔ AdditionsLast slot (s.copy.editAll cat p edits) := by
  obtain ⟨hp, c, hc, _, hediting⟩ := h
  obtain ⟨c', hc', hserver⟩ := hs
  obtain rfl : c' = c := by simpa using hc'.symm.trans hc
  obtain ⟨d, hd, _⟩ := (hediting.editAll cat hp edits).1.held
  have hexecute := (hediting.editAll cat hp edits).1.execute hd
  have hsaved : (s.round cat p edits).copy.values.get? slot = some (.collection d.markSaved) := by
    simp [Synced.round, LocalCopy.markSaved, hd, settled]
  have hround : (s.round cat p edits).server = d.kept ++ d.added := by
    rw [← hexecute, ← hserver]
    rfl
  constructor
  · rintro ⟨e, he, hin⟩ d' hd'
    obtain rfl : d = d' := by simpa using hd.symm.trans hd'
    obtain rfl : d.markSaved = e := by simpa using hsaved.symm.trans he
    rw [← hround, hin, Collection.items_markSaved]
  · intro hlast
    refine ⟨d.markSaved, hsaved, ?_⟩
    rw [hround, Collection.items_markSaved, hlast d hd]

theorem rounds_append (cat : Catalog) (p : Property) (s : Synced)
    (rs rs' : List (List CollectionEdit)) :
    s.rounds cat p (rs ++ rs') = (s.rounds cat p rs).rounds cat p rs' := List.foldl_append

theorem Fresh.rounds (cat : Catalog) (h : Fresh p slot q s) (rs : List (List CollectionEdit)) :
    Fresh p slot q (s.rounds cat p rs) := by
  induction rs generalizing s with
  | nil => exact h
  | cons edits rs ih => exact ih (h.round cat edits)

theorem inStep_iff_additionsLast_of_fresh (h : Fresh p slot q s) (hs : InStep slot s)
    (rs : List (List CollectionEdit)) :
    (∀ done, done <+: rs → InStep slot (s.rounds cat p done)) ↔
    ∀ done edits, done ++ [edits] <+: rs →
      AdditionsLast slot ((s.rounds cat p done).copy.editAll cat p edits) := by
  have hround : ∀ done edits, s.rounds cat p (done ++ [edits]) =
      (s.rounds cat p done).round cat p edits := fun done edits => rounds_append cat p s done [edits]
  constructor
  · intro hall done edits hdone
    have hbefore := hall done ((List.prefix_append done [edits]).trans hdone)
    have hafter := hall (done ++ [edits]) hdone
    rw [hround] at hafter
    exact ((h.rounds cat done).round_inStep hbefore edits).mp hafter
  · intro hlast done hdone
    induction done using List.reverseRecOn with
    | nil => exact hs
    | append_singleton done edits ih =>
      rw [hround]
      exact ((h.rounds cat done).round_inStep
        (ih ((List.prefix_append done [edits]).trans hdone)) edits).mpr (hlast done edits hdone)

/-- A collection to which items are only added at the end never gets out of step. -/
theorem Fresh.inStep_of_addsLast (h : Fresh p slot q s) (hs : InStep slot s)
    (rs : List (List CollectionEdit)) (hrs : ∀ edits ∈ rs, ∀ e ∈ edits, e.AddsLast) :
    InStep slot (s.rounds cat p rs) := by
  refine (inStep_iff_additionsLast_of_fresh h hs rs).mpr ?_ rs List.prefix_rfl
  intro done edits hdone c hc
  obtain ⟨hp, d, hd, hsettled, hediting⟩ := h.rounds cat done
  have hedits : ∀ e ∈ edits, e.AddsLast :=
    hrs edits (hdone.subset (List.mem_append_right _ List.mem_cons_self))
  -- the collection of the slot stays ordered from one edit to the next
  have hordered : ∀ c, ((s.rounds cat p done).copy.editAll cat p edits).values.get? slot =
      some (.collection c) → c.Ordered := by
    refine (run_induction cat (P := fun o => (Editing slot q d.items o ∧
      o.type.slotOf? p = some slot) ∧ ∀ c, o.values.get? slot = some (.collection c) → c.Ordered)
      ⟨⟨hediting, hp⟩, ?_⟩ ?_).2
    · intro c hc
      obtain rfl : d = c := by simpa using hd.symm.trans hc
      exact hsettled.ordered
    · rintro o op hop ⟨⟨hediting', hp'⟩, ho⟩
      obtain ⟨e, he, rfl⟩ := List.mem_map.mp hop
      have htype := (perform_outcome cat o (.edit p (.collection e))).same.2.1
      refine ⟨⟨hediting'.edit hp' e, by rw [htype, hp']⟩, ?_⟩
      obtain ⟨b, hb, _⟩ := hediting'.held
      intro c hc
      rcases edit_collection_state cat hp' hb e with hstate | hstate
      · exact ho c (hstate ▸ hc)
      · have hc' : Value.collection (b.perform cat e).state = .collection c := by
          simpa [perform, hstate] using hc
        obtain rfl := Value.collection.inj hc'
        exact (ho b hb).perform cat (hedits e he)
  exact (hordered c hc).items_eq

/-- A collection that was read from a document is fresh, with the server's copy of it. -/
theorem fresh_of_load {o₀ o : LocalCopy} {content : Forest} {clearFirst : Bool}
    {asked : PropertySet} {summary : Bool} {reports : List Report} {c : Collection}
    (hload : o₀.load cat content clearFirst asked summary = ⟨o, none, reports⟩)
    (hread : slot ∈ o₀.targets content) (hp : o.resolve p = .ok (slot, q))
    (hc : o.values.get? slot = some (.collection c)) (hi : q.has .itemLevel o.version = true)
    (ha : q.has .appendable o.version = true) : Fresh p slot q ⟨o, c.items⟩ := by
  obtain ⟨hslot, hq, happ⟩ := resolve_eq_ok_iff.mp hp
  obtain ⟨o', _, ⟨hstop, _⟩ | ⟨_, ⟨loaded, hstate⟩, hholds, _⟩⟩ :=
    load_eq cat o₀ content clearFirst asked summary
  · rw [hload] at hstop
    exact absurd rfl hstop
  rw [hload] at hstate
  dsimp only at hstate
  subst hstate
  obtain ⟨hattach, hsettled⟩ := hholds slot hread (.collection c) hc
  have hattach' : c.attach (some (o'.link slot)) = c := by simpa [Value.attach] using hattach
  refine ⟨hslot, c, hc, hsettled, hq, happ, hi, ha, rfl, rfl, by simp, c, hc, ?_, ?_, ?_⟩
  · exact hattach'
  · exact Collection.Settled.tracks hsettled
  · exact fun _ => Collection.Settled.hasChanges hsettled

/-- A collection that was read from a document and the server's copy of it stay in step through
rounds of edits and saves exactly when at each save the additions stand last. -/
theorem inStep_iff_additionsLast (cat : Catalog) {o₀ o : LocalCopy} {content : Forest}
    {clearFirst : Bool} {asked : PropertySet} {summary : Bool} {reports : List Report}
    {p q : Property} {slot : Nat} {c : Collection}
    (hload : o₀.load cat content clearFirst asked summary = ⟨o, none, reports⟩)
    (hread : slot ∈ o₀.targets content) (hp : o.resolve p = .ok (slot, q))
    (hc : o.values.get? slot = some (.collection c)) (hi : q.has .itemLevel o.version = true)
    (ha : q.has .appendable o.version = true) (rs : List (List CollectionEdit)) :
    (∀ done, done <+: rs → InStep slot (rounds cat p ⟨o, c.items⟩ done)) ↔
    ∀ done edits, done ++ [edits] <+: rs →
      AdditionsLast slot ((rounds cat p ⟨o, c.items⟩ done).copy.editAll cat p edits) :=
  inStep_iff_additionsLast_of_fresh (fresh_of_load hload hread hp hc hi ha) ⟨c, hc, rfl⟩ rs

def loadedMeeting : LocalCopy :=
  ((new 0 Mail.Calendar.type Mail.session).load (Mail.catalog [])
    (Mail.meeting ["Accept", "Decline"]) true {} false).state

theorem load_loadedMeeting : (new 0 Mail.Calendar.type Mail.session).load (Mail.catalog [])
    (Mail.meeting ["Accept", "Decline"]) true {} false = ⟨loadedMeeting, none, []⟩ := rfl

theorem mem_targets_loadedMeeting : 10 ∈ (new 0 Mail.Calendar.type Mail.session).targets
    (Mail.meeting ["Accept", "Decline"]) := by decide

theorem loadedMeeting_inStep_iff : ∃ c,
    loadedMeeting.values.get? 10 = some (.collection c) ∧
    ((∀ done, done <+: [[.push (Mail.invitee "Tentative")], [.remove 0]] →
      InStep 10 (rounds (Mail.catalog []) Mail.Calendar.requiredAttendees ⟨loadedMeeting, c.items⟩
        done)) ↔
    ∀ done edits, done ++ [edits] <+: [[.push (Mail.invitee "Tentative")], [.remove 0]] →
      AdditionsLast 10 ((rounds (Mail.catalog []) Mail.Calendar.requiredAttendees
        ⟨loadedMeeting, c.items⟩ done).copy.editAll (Mail.catalog [])
          Mail.Calendar.requiredAttendees edits)) :=
  ⟨_, rfl, inStep_iff_additionsLast (Mail.catalog []) load_loadedMeeting mem_targets_loadedMeeting
    rfl rfl rfl rfl _⟩

/-- Somebody is put first on the list of those invited, but sent to its end. -/
theorem loadedMeeting_out_of_step : ∃ c,
    loadedMeeting.values.get? 10 = some (.collection c) ∧
    ¬ InStep 10 (rounds (Mail.catalog []) Mail.Calendar.requiredAttendees ⟨loadedMeeting, c.items⟩
      [[.insert 0 (Mail.invitee "Tentative")]]) := by
  refine ⟨_, rfl, ?_⟩
  intro hstep
  have hfresh : Fresh Mail.Calendar.requiredAttendees 10 Mail.Calendar.requiredAttendees
      ⟨loadedMeeting, _⟩ :=
    fresh_of_load load_loadedMeeting mem_targets_loadedMeeting rfl rfl rfl rfl
  have hlast := (hfresh.round_inStep ⟨_, rfl, rfl⟩ _).mp hstep _ rfl
  have hfirst := congrArg (fun items => items.head?.map fun c =>
    (c.getText (Mail.catalog []) "ResponseType").toOption) hlast
  exact absurd hfirst (by decide)

end Synced

end ObjectTracking
