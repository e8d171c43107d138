import ObjectTracking.Proofs.LocalCopy.Sound
import ObjectTracking.Proofs.Mail
/-!
Changes in place are reported. Whatever is stored in a copy was handed the link to its slot, with
all that is nested in it, so a change of any part counts for that slot, and for no other.
-/
set_option autoImplicit false

namespace ObjectTracking

section Paths
variable {cat : Catalog} {k : Option Link} {α : Type} {a : α} {path : List Step}
  {edit : Composite → Edited Composite α}

theorem Composite.editAt_eq_ok {c : Composite} (hc : c.attach k = c)
    (h : (c.editAt cat edit path).result = .ok (some a)) :
    ∃ n : Composite, n.attach k = n ∧ (edit n).result = .ok a ∧
      ∀ {β : Type} (edit' : Composite → Edited Composite β),
        (c.editAt cat edit' path).signals = (edit' n).signals := by
  induction path generalizing c with
  | nil => exact ⟨c, hc, Edited.ok_of_map_some h, fun _ => rfl⟩
  | cons step path ih =>
    cases step with
    | item ix => cases h
    | field name =>
      rcases editField_eq cat c name (editAt cat edit path) with ⟨ix, n, hn, heq⟩ | ⟨_, e, heq⟩
      · simp only [editAt, heq, Edited.result_within] at h
        obtain ⟨m, hm, hok, hsignals⟩ := ih (attach_nested hc hn) h
        refine ⟨m, hm, hok, ?_⟩
        intro β edit'
        rcases editField_eq cat c name (editAt cat edit' path) with ⟨ix', n', hn', heq'⟩ | ⟨hn', _⟩
        · obtain ⟨rfl, rfl⟩ := Prod.mk.inj (Option.some.inj (hn.symm.trans hn'))
          simp [editAt, heq', hsignals edit']
        · rw [hn] at hn'
          cases hn'
      · simp [editAt, heq] at h

theorem Collection.editAt_eq_ok {c : Collection} (hc : c.attach k = c)
    (h : (c.editAt cat edit path).result = .ok (some a)) :
    ∃ n : Composite, n.attach k = n ∧ (edit n).result = .ok a ∧
      ∀ {β : Type} (edit' : Composite → Edited Composite β),
        (c.editAt cat edit' path).signals = k.toList ++ (edit' n).signals := by
  obtain ⟨hlink, hentries⟩ := attach_eq_self_iff.mp hc
  match path with
  | [] => cases h
  | .field name :: path => cases h
  | .item ix :: path =>
    cases hix : c.entries[ix]? with
    | none => simp [editAt, editItem?, hix] at h
    | some e =>
      simp only [editAt, editItem?, hix, Option.map_some, Option.getD_some,
        Edited.result_within] at h
      obtain ⟨n, hn, hok, hsignals⟩ :=
        Composite.editAt_eq_ok (hentries e (List.mem_of_getElem? hix)) h
      refine ⟨n, hn, hok, ?_⟩
      intro β edit'
      simp [editAt, editItem?, hix, hlink, hsignals edit']

end Paths

section Signals
variable {cat : Catalog} {ix : Nat} {item : Composite}

theorem Composite.signals_set_of_ok {c : Composite} {name : String} {v : Value}
    (h : (c.set cat name v).result = .ok ()) : (c.set cat name v).signals = c.link.toList := by
  rcases set_eq cat c name v with ⟨_, _, _, _, _, heq⟩ | ⟨e, heq⟩
  · simp [heq]
  · simp [heq] at h

theorem Collection.signals_insert_of_ok {c : Collection}
    (h : (c.insert cat ix item).result = .ok ()) :
    (c.insert cat ix item).signals = c.link.toList := by
  rcases insert_eq cat c ix item with ⟨_, heq⟩ | ⟨_, e, heq⟩
  · simp [heq]
  · simp [heq] at h

theorem Collection.signals_remove_of_ok {c : Collection}
    (h : (c.remove ix).result = .ok (some item)) : (c.remove ix).signals = c.link.toList := by
  cases hix : c.entries[ix]? with
  | none => simp [remove, hix] at h
  | some e => simp [remove, hix]

end Signals

namespace LocalCopy
variable {cat : Catalog} {o o' : LocalCopy} {p q : Property} {slot : Nat}

/-- What a copy may become in the hands of its callers. -/
inductive Becomes (cat : Catalog) (o : LocalCopy) : LocalCopy → Prop where
  | same : Becomes cat o o
  | perform {o' : LocalCopy} (before : Becomes cat o o') (op : Operation) :
    Becomes cat o (o'.perform cat op).state
  /-- Values that are elsewhere by now may report to it still. -/
  | hear {o' : LocalCopy} (before : Becomes cat o o') (signals : List Link) :
    Becomes cat o (o'.hear signals)
  | watch {o' : LocalCopy} (before : Becomes cat o o') (watched : Bool) :
    Becomes cat o { o' with watched }
  | settle {o' : LocalCopy} (before : Becomes cat o o') (p : Property) :
    Becomes cat o (o'.editCollection p fun c => .done () c.markSaved none).state

/-- A change of a value in place. -/
inductive Mutation where
  /-- The field of a composite at the end of a path. -/
  | set (path : List Step) (name : String) (v : Value)
  | push (item : Composite)
  | insert (ix : Nat) (item : Composite)
  | remove (ix : Nat)

def Mutation.apply (cat : Catalog) (o : LocalCopy) (p : Property) :
    Mutation → Edited LocalCopy (Option Unit)
  | .set path name v => o.editAt cat p path (·.set cat name v)
  | .push item => (o.editCollection p (·.push cat item)).map some
  | .insert ix item => (o.editCollection p (·.insert cat ix item)).map some
  | .remove ix => (o.editCollection p (·.remove ix)).map (·.map fun _ => ())

def Mutation.reach (cat : Catalog) (o : LocalCopy) (p : Property) :
    Mutation → Edited LocalCopy (Option Unit)
  | .set path _ _ => o.editAt cat p path (.done () · none)
  | _ => (o.editCollection p (.done () · none)).map some

/-- A change of the value in a slot counts for this slot and for nothing else. -/
structure Reports {α β : Type} (o : LocalCopy) (slot : Nat) (reached : Edited LocalCopy α)
    (changed : Edited LocalCopy β) : Prop where
  dirty : changed.state.isDirty slot = true
  /-- The owner hears of the slot once more than from reaching the value. -/
  heard : o.heard changed.signals =
    ((o.heard reached.signals).1 ++ if o.watched then [slot] else [], [])
  /-- Nothing but this slot is heard of. -/
  own : ∀ s ∈ changed.signals, s = o.link slot
  values : ∀ n, n ≠ slot → changed.state.values.get? n = o.values.get? n
  touched : ∀ n, n ≠ slot → changed.state.touched.contains n = o.touched.contains n
  /-- Everything else about the copy stays. -/
  frame : { changed.state with values := o.values, touched := o.touched } = o
  others : ∀ b : LocalCopy, b.id ≠ o.id →
    b.hear changed.signals = b ∧ (b.heard changed.signals).1 = []

theorem Becomes.attached (h : Becomes cat o o') (ho : Attached o) : Attached o' := by
  induction h with
  | same => exact ho
  | perform _ op ih => exact (perform_outcome cat _ op).attached ih
  | hear _ _ ih => exact ih
  | watch _ _ ih => exact ih
  | @settle o' _ p ih =>
    unfold editCollection
    cases hi : o'.instantiate p with
    | error e => exact ih
    | ok r =>
      obtain ⟨slot, q, o''⟩ := r
      have h'' := ih.instantiate hi
      dsimp only
      split
      · rename_i c hc
        exact h''.storeEdited (attach_settled (.collection c) _ (h'' slot _ hc))
      · exact h''

theorem Attached.held (ha : Attached o) (hi : o.instantiate p = .ok (slot, q, o')) {v : Value}
    (hv : o'.values.get? slot = some v) : v.attach (o.link slot) = v := by
  rw [← link_of_instantiate hi]
  exact ha.instantiate hi slot v hv

theorem hear_of_ne {b : LocalCopy} {signals : List Link} (h : ∀ s ∈ signals, s.copy ≠ b.id) :
    b.hear signals = b ∧ (b.heard signals).1 = [] := by
  have hfilter : signals.filter (·.copy == b.id) = [] := by
    simpa [List.filter_eq_nil_iff] using h
  refine ⟨by simp [hear, hfilter], ?_⟩
  simp [LocalCopy.heard, List.partition_eq_filter_filter, hfilter]

theorem heard_of_own {signals : List Link} (h : ∀ s ∈ signals, s.copy = o.id) :
    o.heard signals = (if o.watched then signals.map Link.slot else [], []) := by
  have hown : signals.filter (·.copy == o.id) = signals := by
    simpa [List.filter_eq_self] using h
  have hstrays : signals.filter (not ∘ (·.copy == o.id)) = [] := by
    simpa [List.filter_eq_nil_iff] using h
  simp [LocalCopy.heard, List.partition_eq_filter_filter, hown, hstrays]

theorem touched_storeEdited {α : Type} {r : Edited Value α} (h : ∀ s ∈ r.signals, s = o.link slot)
    (n : Nat) : (o.storeEdited slot r).state.touched.contains n = true ↔
      o.touched.contains n = true ∨ n = slot ∧ r.signals ≠ [] := by
  refine (contains_touched_hear { o with values := o.values.insert slot r.state } _ n).trans
    (or_congr_right ?_)
  constructor
  · intro hn
    exact ⟨congrArg Link.slot (h _ hn), List.ne_nil_of_mem hn⟩
  · rintro ⟨rfl, hne⟩
    obtain ⟨s, hs⟩ := List.exists_mem_of_ne_nil _ hne
    exact h s hs ▸ hs

/-- Two edits of the value in a slot, one of which reports once more than the other. -/
theorem reports_of_storeEdited {α β : Type} (hi : o.instantiate p = .ok (slot, q, o'))
    {reached : Edited Value α} {changed : Edited Value β}
    (hreached : ∀ s ∈ reached.signals, s = o.link slot)
    (hchanged : changed.signals = reached.signals ++ [o.link slot]) :
    Reports o slot (o'.storeEdited slot reached) (o'.storeEdited slot changed) := by
  have hown : ∀ s ∈ changed.signals, s = o.link slot := by
    simpa [hchanged, or_imp, forall_and] using hreached
  have hcopy : ∀ s ∈ changed.signals, s.copy = o.id := fun s hs => congrArg Link.copy (hown s hs)
  obtain ⟨hvalues, hframe⟩ := frame_of_instantiate hi
  have hown' : ∀ s ∈ changed.signals, s = o'.link slot := link_of_instantiate hi slot ▸ hown
  have htouched := touched_storeEdited hown'
  refine ⟨?_, ?_, ?_, ?_, ?_, ?_, ?_⟩
  · have hslot := (htouched slot).mpr (.inr ⟨rfl, by simp [hchanged]⟩)
    simp [isDirty, hslot]
  · have hreached' : ∀ s ∈ reached.signals, s.copy = o.id :=
      fun s hs => congrArg Link.copy (hreached s hs)
    change o.heard changed.signals = ((o.heard reached.signals).1 ++ _, [])
    rw [heard_of_own hcopy, heard_of_own hreached', hchanged]
    cases o.watched <;> simp [link]
  · exact hown
  · intro n hn
    simpa [hn] using hvalues n hn
  · intro n hn
    have hsame := congrArg LocalCopy.touched hframe
    rw [Bool.eq_iff_iff, htouched n, ← hsame]
    simp [hn]
  · rw [← hframe]
    rfl
  · intro b hb
    exact hear_of_ne fun s hs heq => hb (heq.symm.trans (hcopy s hs))

theorem editComposite_eq_ok {α : Type} {a : α} {edit : Composite → Edited Composite α}
    (h : (o.editComposite p edit).result = .ok a) :
    ∃ slot q o' c, o.instantiate p = .ok (slot, q, o') ∧
      o'.values.get? slot = some (.composite c) ∧ (edit c).result = .ok a ∧
      ∀ {β : Type} (edit' : Composite → Edited Composite β),
        o.editComposite p edit' = o'.storeEdited slot ((edit' c).within [] .composite) := by
  unfold editComposite at h
  split at h
  · cases h
  · rename_i slot q o' hi
    split at h
    · rename_i c hc
      refine ⟨slot, q, o', c, hi, hc, h, ?_⟩
      intro β edit'
      simp [editComposite, hi, hc]
    · cases h

theorem editCollection_eq_ok {α : Type} {a : α} {edit : Collection → Edited Collection α}
    (h : (o.editCollection p edit).result = .ok a) :
    ∃ slot q o' c, o.instantiate p = .ok (slot, q, o') ∧
      o'.values.get? slot = some (.collection c) ∧ (edit c).result = .ok a ∧
      ∀ {β : Type} (edit' : Collection → Edited Collection β),
        o.editCollection p edit' = o'.storeEdited slot ((edit' c).within [] .collection) := by
  unfold editCollection at h
  split at h
  · cases h
  · rename_i slot q o' hi
    split at h
    · rename_i c hc
      refine ⟨slot, q, o', c, hi, hc, h, ?_⟩
      intro β edit'
      simp [editCollection, hi, hc]
    · cases h

theorem Reports.map {α α' β β' : Type} {reached : Edited LocalCopy α} {changed : Edited LocalCopy β}
    (h : Reports o slot reached changed) (f : α → α') (g : β → β') :
    Reports o slot (reached.map f) (changed.map g) :=
  ⟨h.dirty, h.heard, h.own, h.values, h.touched, h.frame, h.others⟩

/-- An edit at the end of a path is one of a composite that reports to the property's slot. -/
theorem editAt_eq_ok {α : Type} {a : α} {path : List Step} {edit : Composite → Edited Composite α}
    (ha : Attached o) (h : (o.editAt cat p path edit).result = .ok (some a)) :
    ∃ slot q o' n before, o.instantiate p = .ok (slot, q, o') ∧
      n.attach (some (o.link slot)) = n ∧ (edit n).result = .ok a ∧
      (∀ s ∈ before, s = o.link slot) ∧
      ∀ {β : Type} (edit' : Composite → Edited Composite β), ∃ r : Edited Value (Option β),
        o.editAt cat p path edit' = o'.storeEdited slot r ∧
          r.signals = before ++ (edit' n).signals := by
  unfold editAt at h
  split at h
  · obtain ⟨slot, q, o', c, hi, hc, hok, hedits⟩ := editCollection_eq_ok h
    have hattached : c.attach (some (o.link slot)) = c := by
      simpa [Value.attach] using ha.held hi hc
    obtain ⟨n, hn, hok, hsignals⟩ := Collection.editAt_eq_ok hattached hok
    refine ⟨slot, q, o', n, [o.link slot], hi, hn, hok, by simp, ?_⟩
    intro β edit'
    exact ⟨_, hedits _, by simp [hsignals edit']⟩
  · rename_i _ hpath
    obtain ⟨slot, q, o', c, hi, hc, hok, hedits⟩ := editComposite_eq_ok h
    have hattached : c.attach (some (o.link slot)) = c := by
      simpa [Value.attach] using ha.held hi hc
    obtain ⟨n, hn, hok, hsignals⟩ := Composite.editAt_eq_ok hattached hok
    refine ⟨slot, q, o', n, [], hi, hn, hok, by simp, ?_⟩
    intro β edit'
    refine ⟨(Composite.editAt cat edit' path c).within [] .composite, ?_, by simp [hsignals edit']⟩
    rw [← hedits, editAt]
    exact hpath

/-- An edit of a collection that reports once. -/
theorem reports_of_editCollection {α : Type} {a : α} {edit : Collection → Edited Collection α}
    (ha : Attached o) (h : (o.editCollection p edit).result = .ok a)
    (hedit : ∀ c, (edit c).result = .ok a → (edit c).signals = c.link.toList) :
    ∃ slot q o', o.instantiate p = .ok (slot, q, o') ∧
      Reports o slot (o.editCollection p (.done () · none)) (o.editCollection p edit) := by
  obtain ⟨slot, q, o', c, hi, hc, hok, hedits⟩ := editCollection_eq_ok h
  have hattached : c.attach (some (o.link slot)) = c := by
    simpa [Value.attach] using ha.held hi hc
  have hlink := (Collection.attach_eq_self_iff.mp hattached).1
  refine ⟨slot, q, o', hi, ?_⟩
  rw [hedits edit, hedits (.done () · none)]
  exact reports_of_storeEdited hi (by simp) (by simp [hedit c hok, hlink])

theorem Mutation.reports_of_attached (ha : Attached o) {m : Mutation}
    (hok : (m.apply cat o p).result = .ok (some ())) :
    ∃ slot q o', o.instantiate p = .ok (slot, q, o') ∧
      Reports o slot (m.reach cat o p) (m.apply cat o p) := by
  cases m with
  | set path name v =>
    obtain ⟨slot, q, o', n, before, hi, hn, hset, hbefore, hedits⟩ := editAt_eq_ok ha hok
    obtain ⟨reached, hreached, hsignals⟩ := hedits (.done () · none)
    obtain ⟨changed, hchanged, hsignals'⟩ := hedits (·.set cat name v)
    refine ⟨slot, q, o', hi, ?_⟩
    simp only [Mutation.reach, Mutation.apply, hreached, hchanged]
    refine reports_of_storeEdited hi (by simpa [hsignals] using hbefore) ?_
    rw [hsignals, hsignals', Composite.signals_set_of_ok hset, (Composite.attach_eq_self_iff.mp hn).1]
    simp
  | push item =>
    obtain ⟨slot, q, o', hi, hr⟩ := reports_of_editCollection ha (Edited.ok_of_map_some hok)
      fun c => Collection.signals_insert_of_ok
    exact ⟨slot, q, o', hi, hr.map some some⟩
  | insert ix item =>
    obtain ⟨slot, q, o', hi, hr⟩ := reports_of_editCollection ha (Edited.ok_of_map_some hok)
      fun c => Collection.signals_insert_of_ok
    exact ⟨slot, q, o', hi, hr.map some some⟩
  | remove ix =>
    obtain ⟨taken, htaken, hsome⟩ := Edited.ok_of_map hok
    obtain ⟨item, rfl, -⟩ := Option.map_eq_some_iff.mp hsome
    obtain ⟨slot, q, o', hi, hr⟩ := reports_of_editCollection ha htaken
      fun c => Collection.signals_remove_of_ok
    exact ⟨slot, q, o', hi, hr.map some _⟩

/-- Every change in place of a value in a copy, whatever brought the copy and its values to be as
they are, makes the property modified that holds the value, is heard of once, and leaves everything
else alone. -/
theorem Becomes.reports {id : Nat} {type : ObjectType} {session : Session}
    (h : Becomes cat (new id type session) o) {m : Mutation}
    (hok : (m.apply cat o p).result = .ok (some ())) :
    ∃ slot q, o.resolve p = .ok (slot, q) ∧ (m.apply cat o p).state.isModified p = true ∧
      Reports o slot (m.reach cat o p) (m.apply cat o p) := by
  have ha : Attached o := h.attached (.new id type session)
  obtain ⟨slot, q, o', hi, hr⟩ := Mutation.reports_of_attached ha hok
  have hresolved := (instantiate_eq_ok hi).1
  have htype := congrArg LocalCopy.type hr.frame
  dsimp only at htype
  refine ⟨slot, q, hresolved, ?_, hr⟩
  simp [isModified, slotIs, htype, (resolve_eq_ok_iff.mp hresolved).1, hr.dirty]

def smallMeeting : LocalCopy :=
  ((new 0 Mail.Calendar.type Mail.session).perform (Mail.catalog [])
    (.load (Mail.meeting ["Accept"]) true {} false)).state

def watchedMeeting : LocalCopy := { smallMeeting with watched := true }

/-- The name in this person's mailbox is set. The mailbox is created for it. -/
def named : Mutation := .set [.item 0, .field "Mailbox"] "Name" (.scalar (.text "Guest"))

theorem watchedMeeting_reports :
    Becomes (Mail.catalog []) (new 0 Mail.Calendar.type Mail.session) watchedMeeting ∧
    (named.apply (Mail.catalog []) watchedMeeting Mail.Calendar.requiredAttendees).result =
      .ok (some ()) ∧
    ∃ slot q, watchedMeeting.resolve Mail.Calendar.requiredAttendees = .ok (slot, q) ∧
      (named.apply (Mail.catalog []) watchedMeeting
        Mail.Calendar.requiredAttendees).state.isModified Mail.Calendar.requiredAttendees = true ∧
      Reports watchedMeeting slot
        (named.reach (Mail.catalog []) watchedMeeting Mail.Calendar.requiredAttendees)
        (named.apply (Mail.catalog []) watchedMeeting Mail.Calendar.requiredAttendees) := by
  have hbecomes : Becomes (Mail.catalog []) (new 0 Mail.Calendar.type Mail.session) watchedMeeting :=
    (Becomes.same.perform _).watch true
  have hok : (named.apply (Mail.catalog []) watchedMeeting
      Mail.Calendar.requiredAttendees).result = .ok (some ()) := rfl
  exact ⟨hbecomes, hok, hbecomes.reports hok⟩

end LocalCopy

end ObjectTracking
