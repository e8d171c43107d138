import ObjectTracking.Proofs.Composite.Creation
import ObjectTracking.Proofs.LocalCopy.Failure
import ObjectTracking.Proofs.LocalCopy.Sound
import ObjectTracking.Proofs.Mail
/-!
What a property reads as while it does not count as modified. Since a copy was last cleared, loaded or
saved, it reads the same but for the nested values that were created within it, which no one is told
of.
-/
set_option autoImplicit false

namespace ObjectTracking

namespace LocalCopy
variable {cat : Catalog} {o o' : LocalCopy} {p q : Property} {slot n : Nat} {op : Operation}
  {a b : Bool} {r r' r'' : Except Fault Value}

/-- Whether an operation creates a nested value within the composite in a slot. -/
def creates (cat : Catalog) (o : LocalCopy) (slot : Nat) : Operation → Bool
  | .edit p e =>
    match o.instantiate p with
    | .ok (n, _, o') => n == slot && (o'.values.get? n).any (Value.creates cat e)
    | .error _ => false
  | _ => false

def everCreates (cat : Catalog) (o : LocalCopy) (slot : Nat) : List Operation → Bool
  | [] => false
  | op :: ops => o.creates cat slot op || (o.perform cat op).state.everCreates cat slot ops

/-- A slot reads as before or, if something was created within its value, as a value that has
grown. -/
def ReadsOn (created : Bool) : Except Fault Value → Except Fault Value → Prop
  | .ok v, .ok w => v.Grows created w
  | .error e, .error f => created = false ∧ f = e
  | _, _ => False

theorem ReadsOn.refl (r : Except Fault Value) : ReadsOn false r r := by
  cases r with
  | ok v => exact rfl
  | error e => exact ⟨rfl, rfl⟩

theorem ReadsOn.trans (h : ReadsOn a r r') (h' : ReadsOn b r' r'') : ReadsOn (a || b) r r'' := by
  cases r <;> cases r' <;> try exact h.elim
  all_goals cases r'' <;> try exact h'.elim
  · obtain ⟨rfl, rfl⟩ := h
    exact h'
  · exact Value.Grows.trans h h'

theorem ReadsOn.detach_eq_iff (h : ReadsOn a r r') :
    r'.map Value.detach = r.map Value.detach ↔ a = false := by
  cases r <;> cases r' <;> try exact h.elim
  · obtain ⟨rfl, rfl⟩ := h
    simp
  · simpa [Except.map] using Value.Grows.detach_eq_iff h

theorem Outcome.isDirty {event : Option Event} (ho : Outcome cat o op event o')
    (hop : op.IsMutation) (h : o.isDirty slot = true) : o'.isDirty slot = true := by
  have hreached : ∀ {p q n o'}, o.instantiate p = .ok (n, q, o') → o'.isDirty slot = true := by
    intro p q n o' hi
    rwa [← (frame_of_instantiate hi).2] at h
  simp only [LocalCopy.isDirty, Bool.or_eq_true] at h hreached ⊢
  cases ho with
  | failed => exact h
  | @deleted _ _ _ n =>
    by_cases hn : slot = n
    · simp [LocalCopy.withDeleted, hn]
    · simpa [LocalCopy.withDeleted, hn] using h
  | @assigned _ _ _ _ n =>
    by_cases hn : slot = n
    · simp [LocalCopy.withAssigned, hn]
    · simpa [LocalCopy.withAssigned, hn] using h
  | refused hi => exact hreached hi
  | @edited _ _ _ n o' _ r hi =>
    refine (hreached hi).imp_right fun ht => ?_
    exact (contains_touched_hear { o' with values := o'.values.insert n r.state } _ _).mpr (.inl ht)
  | cleared => cases hop
  | loaded => cases hop
  | saved => cases hop

theorem read_congr (hv : o'.values.get? slot = o.values.get? slot)
    (hd : o'.deleted.contains slot = o.deleted.contains slot)
    (hl : o'.loaded.contains slot = o.loaded.contains slot) (q : Property) :
    o'.read slot q = o.read slot q := by
  simp only [read, hv, hd, hl]

/-- An operation that is no edit in place changes what it notes, and nothing else. -/
theorem Outcome.read_eq {event : Option Event} (ho : Outcome cat o op event o')
    (hop : op.IsMutation) (hedit : ∀ p e, op ≠ .edit p e) (hclean : o'.isDirty slot = false)
    (q : Property) : o'.read slot q = o.read slot q := by
  cases ho with
  | failed => rfl
  | @deleted _ _ _ n =>
    have hn : slot ≠ n := by
      rintro rfl
      simp [LocalCopy.isDirty, LocalCopy.withDeleted] at hclean
    apply read_congr <;> simp [LocalCopy.withDeleted, hn]
  | @assigned _ _ _ _ n =>
    have hn : slot ≠ n := by
      rintro rfl
      simp [LocalCopy.isDirty, LocalCopy.withAssigned] at hclean
    apply read_congr <;> simp [LocalCopy.withAssigned, hn]
  | refused => exact absurd rfl (hedit _ _)
  | edited => exact absurd rfl (hedit _ _)
  | cleared => cases hop
  | loaded => cases hop
  | saved => cases hop

/-- A value that is created on read is the default that was read before. -/
theorem readsOn_instantiate (hq : o.type.property? slot = some q) {q' : Property}
    (hi : o.instantiate p = .ok (n, q', o')) : ReadsOn false (o.read slot q) (o'.read slot q) := by
  obtain ⟨hr, -, ⟨-, rfl⟩ | ⟨v, hnone, hdeleted, hdefault, -, rfl⟩⟩ := instantiate_eq_ok hi
  · exact .refl _
  · by_cases hn : slot = n
    · subst hn
      obtain rfl := Option.some.inj (hq.symm.trans (resolve_eq_ok_iff.mp hr).2.1)
      have hbefore : o.read slot q = .ok v := by simp [read, hnone, hdeleted, hdefault]
      have hafter : (o.created slot v).read slot q = .ok (v.copy.attach (o.link slot)) := by
        simp [read, created]
      rw [hbefore, hafter]
      exact Value.detach_copy_attach v _
    · have hsame : (o.created n v).read slot q = o.read slot q := by
        apply read_congr <;> simp [created, hn]
      rw [hsame]
      exact .refl _

theorem creates_edit (hi : o.instantiate p = .ok (n, q, o')) (e : ValueEdit) :
    o.creates cat slot (.edit p e) =
      (n == slot && (o'.values.get? n).any (Value.creates cat e)) := by
  simp only [creates, hi]

theorem Value.creates_of_perform_eq_none {e : ValueEdit} {v : Value} (h : v.perform cat e = none) :
    v.creates cat e = false := by
  cases e <;> cases v <;> first | rfl | cases h

/-- What one operation makes of a slot that does not count as modified after it. -/
theorem Sound.readsOn_perform (hs : Sound o) (hq : o.type.property? slot = some q)
    (hop : op.IsMutation) (hclean : (o.perform cat op).state.isDirty slot = false) :
    ReadsOn (o.creates cat slot op) (o.read slot q) ((o.perform cat op).state.read slot q) := by
  have hnoted : (∀ p e, op ≠ .edit p e) →
      ReadsOn false (o.read slot q) ((o.perform cat op).state.read slot q) := by
    intro hedit
    rw [(perform_outcome cat o op).read_eq hop hedit hclean q]
    exact .refl _
  cases op with
  | set p v => exact hnoted (by simp)
  | delete p => exact hnoted (by simp)
  | clear => cases hop
  | load => cases hop
  | markSaved => cases hop
  | edit p e =>
    have hperform : o.perform cat (.edit p e) = o.edit cat p e := rfl
    rw [hperform] at hclean ⊢
    rcases edit_eq cat o p e with ⟨f, hi, h⟩ | ⟨n, q', o', hi, ⟨v, r, hv, hr, h⟩ | ⟨hnone, f, h⟩⟩
    · have hcreates : o.creates cat slot (.edit p e) = false := by simp only [creates, hi]
      rw [hcreates, h]
      exact .refl _
    · have hreached := readsOn_instantiate hq hi
      rw [h] at hclean ⊢
      rw [creates_edit hi, hv, Option.any_some]
      by_cases hn : n = slot
      · subst hn
        -- Had the edit counted as a change, the slot would be noted.
        have hunchanged : v.changes cat e = false := by
          cases hchanges : v.changes cat e with
          | false => rfl
          | true =>
            have htouched := (contains_touched_storeEdited ((hs.instantiate hi).attached n v hv) hr
              n).mpr (.inr ⟨rfl, hchanges⟩)
            simp [isDirty, htouched] at hclean
        have hbefore : o'.read n q = .ok v := by simp [read, hv]
        have hafter : (o'.storeEdited n r).state.read n q = .ok r.state := by simp [read]
        rw [hbefore] at hreached
        rw [hafter, beq_self_eq_true, Bool.true_and]
        have hgrows : ReadsOn (v.creates cat e) (.ok v) (.ok r.state) :=
          Value.perform_grows hunchanged hr
        exact hreached.trans hgrows
      · have hsame : (o'.storeEdited n r).state.read slot q = o'.read slot q := by
          apply read_congr
          · simp [Ne.symm hn]
          · rfl
          · rfl
        rw [hsame, beq_false_of_ne hn, Bool.false_and]
        exact hreached
    · have hcreates : (o'.values.get? n).any (Value.creates cat e) = false := by
        cases hv : o'.values.get? n with
        | none => rfl
        | some v => exact Value.creates_of_perform_eq_none (hnone v hv)
      rw [h, creates_edit hi, hcreates, Bool.and_false]
      exact readsOn_instantiate hq hi

/-- What some operations make of a slot that does not count as modified after them. -/
theorem Sound.readsOn_run {ops : List Operation} (hs : Sound o)
    (hq : o.type.property? slot = some q) (hops : ∀ op ∈ ops, op.IsMutation)
    (hclean : (o.run cat ops).isDirty slot = false) :
    ReadsOn (o.everCreates cat slot ops) (o.read slot q) ((o.run cat ops).read slot q) := by
  induction ops generalizing o with
  | nil => exact .refl _
  | cons op ops ih =>
    have hop := hops op List.mem_cons_self
    have hrest : ∀ op ∈ ops, op.IsMutation := fun op h => hops op (List.mem_cons_of_mem _ h)
    have ho := perform_outcome cat o op
    have hstep : (o.perform cat op).state.isDirty slot = false := by
      cases hdirty : (o.perform cat op).state.isDirty slot with
      | false => rfl
      | true =>
        have hrun := run_induction cat (P := fun o' => o'.isDirty slot = true) hdirty
          fun o' op h => (perform_outcome cat o' op).isDirty (hrest op h)
        rw [run_cons, hrun] at hclean
        cases hclean
    exact (hs.readsOn_perform hq hop hstep).trans
      (ih (ho.sound hs) (ho.same.2.1 ▸ hq) hrest hclean)

theorem resolve_congr (htype : o'.type = o.type) (hsession : o'.session = o.session)
    (p : Property) : o'.resolve p = o.resolve p := by
  cases o
  cases o'
  cases htype
  cases hsession
  rfl

theorem Sound.get_run_iff {ops : List Operation} (hs : Sound o)
    (hops : ∀ op ∈ ops, op.IsMutation) (hp : (o.run cat ops).isModified p = false) :
    ((o.run cat ops).get p).map Value.detach = (o.get p).map Value.detach ↔
      ∀ slot q, o.resolve p = .ok (slot, q) → o.everCreates cat slot ops = false := by
  obtain ⟨-, htype, hsession⟩ := run_same cat o ops
  have hresolve : (o.run cat ops).resolve p = o.resolve p := resolve_congr htype hsession p
  cases hr : o.resolve p with
  | error e => simp [get, hresolve, hr, bind, Except.bind]
  | ok found =>
    obtain ⟨slot, q⟩ := found
    obtain ⟨hslot, hq, -⟩ := resolve_eq_ok_iff.mp hr
    have hclean : (o.run cat ops).isDirty slot = false := by
      simpa [isModified, slotIs, htype, hslot] using hp
    have hreads := (hs.readsOn_run hq hops hclean).detach_eq_iff
    simpa [get, hresolve, hr, bind, Except.bind] using hreads

/-- A property that does not count as modified reads the same, but for links, as at any earlier time
since the copy was last cleared, loaded or saved, exactly if no edit since then has created a nested
value within it. -/
theorem get_unmodified_iff (cat : Catalog) (id : Nat) (type : ObjectType) (session : Session)
    (before since : List Operation) (hsince : ∀ op ∈ since, op.IsMutation)
    (hp : (((new id type session).run cat before).run cat since).isModified p = false) :
    ((((new id type session).run cat before).run cat since).get p).map Value.detach =
        (((new id type session).run cat before).get p).map Value.detach ↔
      ∀ slot q, ((new id type session).run cat before).resolve p = .ok (slot, q) →
        ((new id type session).run cat before).everCreates cat slot since = false :=
  ((Sound.new id type session).run before).get_run_iff hsince hp

def host : Property :=
  (Property.composite "Host" "party:Host" Mail.attendee).withFlags Flag.mutable

def party : ObjectType where
  element := "Party"
  target := .item
  members := [⟨.summary, host⟩]

/-- A party is saved with its host, of whom no mailbox is known. -/
def hosted : LocalCopy :=
  (new 0 party Mail.session).run (Mail.catalog [])
    [.set host (.composite (Mail.invitee "Accept")), .markSaved]

/-- The mailbox of the host is reached and left alone. -/
def lookedUp : List Operation := [.edit host (.composite (.nested "Mailbox" .touch))]

theorem lookedUp_get_iff :
    (∀ op ∈ lookedUp, op.IsMutation) ∧
    (hosted.run (Mail.catalog []) lookedUp).isModified host = false ∧
    (((hosted.run (Mail.catalog []) lookedUp).get host).map Value.detach =
        (hosted.get host).map Value.detach ↔
      ∀ slot q, hosted.resolve host = .ok (slot, q) →
        hosted.everCreates (Mail.catalog []) slot lookedUp = false) := by
  have hops : ∀ op ∈ lookedUp, op.IsMutation := by simp [lookedUp, Operation.IsMutation]
  have hclean : (hosted.run (Mail.catalog []) lookedUp).isModified host = false := by decide
  exact ⟨hops, hclean, get_unmodified_iff (Mail.catalog []) 0 party Mail.session _ lookedUp hops hclean⟩

/-- The host has a mailbox now, and does not count as modified. -/
theorem lookedUp_reads_otherwise :
    (∀ op ∈ lookedUp, op.IsMutation) ∧
    (hosted.run (Mail.catalog []) lookedUp).isModified host = false ∧
    ((hosted.run (Mail.catalog []) lookedUp).get host).map Value.detach ≠
      (hosted.get host).map Value.detach := by
  refine ⟨by simp [lookedUp, Operation.IsMutation], by decide, ?_⟩
  have hbefore : (hosted.get host).map Value.detach =
      .ok (.composite (.mk Mail.attendee none [.unset, .scalar (.name "Accept")])) := rfl
  have hafter : ((hosted.run (Mail.catalog []) lookedUp).get host).map Value.detach =
      .ok (.composite (.mk Mail.attendee none
        [.nested (.mk Mail.mailbox none [.unset, .unset, .unset]), .scalar (.name "Accept")])) := rfl
  rw [hbefore, hafter]
  simp

end LocalCopy

end ObjectTracking
