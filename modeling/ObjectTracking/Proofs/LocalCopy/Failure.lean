import ObjectTracking.Proofs.LocalCopy.Run
import ObjectTracking.Proofs.Mail
/-!
Calls that fail. What a caller does to a copy is a chain of calls, each on the value that the one
before it has reached, and only the last of them is judged: the calls before it may well create or
mark what they pass. A last call that fails leaves the copy as those before it have left it, with one
exception: the default of a property that is created on read is stored before anyone looks whether it
is of the kind asked for.
-/
set_option autoImplicit false

namespace ObjectTracking

/-- The calls before the last one; nothing if the only call is the one that reaches the value. -/
def CompositeEdit.before? : CompositeEdit → Option CompositeEdit
  | .touch => none
  | .set _ _ | .notify => some .touch
  | .nested name edit => some ((edit.before?.map (.nested name)).getD .touch)

@[inherit_doc CompositeEdit.before?]
def CollectionEdit.before? : CollectionEdit → Option CollectionEdit
  | .touch => none
  | .insert _ _ | .push _ | .remove _ | .clear => some .touch
  | .item ix edit => some ((edit.before?.map (.item ix)).getD .touch)

@[inherit_doc CompositeEdit.before?]
def ValueEdit.before? : ValueEdit → Option ValueEdit
  | .composite edit => edit.before?.map .composite
  | .collection edit => edit.before?.map .collection

theorem CompositeEdit.eq_touch {e : CompositeEdit} (h : e.before? = none) : e = .touch := by
  cases e <;> first | rfl | cases h

theorem CollectionEdit.eq_touch {e : CollectionEdit} (h : e.before? = none) : e = .touch := by
  cases e <;> first | rfl | cases h

def Edited.Leaves {σ α : Type} (e e' : Edited σ α) : Prop :=
  e.state = e'.state ∧ e.signals = e'.signals

namespace Edited
variable {σ τ α : Type} {e e' : Edited σ α}

theorem Leaves.within (h : e.Leaves e') (b : List Link) (f : σ → τ) :
    (e.within b f).Leaves (e'.within b f) := by
  obtain ⟨hstate, hsignals⟩ := h
  refine ⟨?_, ?_⟩
  · rw [state_within, state_within, hstate]
  · rw [signals_within, signals_within, hsignals]

end Edited

/-- A last call that fails adds nothing to what the calls before it did to a composite. -/
theorem Composite.leaves_before {cat : Catalog} {edit before : CompositeEdit} {c : Composite}
    {f : Fault} (hbefore : edit.before? = some before)
    (hok : (c.perform cat before).result = .ok ()) (hf : (c.perform cat edit).result = .error f) :
    (c.perform cat before).Leaves (c.perform cat edit) := by
  induction edit generalizing c before with
  | touch => cases hbefore
  | notify => cases hf
  | set name v =>
    obtain rfl := Option.some.inj hbefore
    rcases set_eq cat c name v with ⟨ix, field, stored, -, -, h⟩ | ⟨e, h⟩
    · simp [perform, h] at hf
    · simp [perform, h, Edited.Leaves]
  | nested name edit ih =>
    obtain rfl := Option.some.inj hbefore
    cases hinner : edit.before? with
    | none =>
      -- The value is only reached: the last call is the one that steps into the field.
      obtain rfl := CompositeEdit.eq_touch hinner
      have hperform : c.perform cat (.nested name .touch) =
          c.editField cat name (perform cat .touch) := rfl
      rw [hperform] at hf ⊢
      rcases editField_eq cat c name (perform cat .touch) with ⟨ix, n, -, h⟩ | ⟨-, e, h⟩
      · rw [h] at hf
        cases hf
      · rw [h]
        exact ⟨rfl, rfl⟩
    | some inner =>
      simp only [hinner, Option.map_some, Option.getD_some, perform] at hok ⊢
      simp only [perform] at hf
      rcases editField_eq cat c name (perform cat edit) with ⟨ix, n, hn, h⟩ | ⟨hn, e, h⟩ <;>
        rcases editField_eq cat c name (perform cat inner) with ⟨ix', n', hn', h'⟩ | ⟨hn', e', h'⟩
      · obtain ⟨rfl, rfl⟩ := Prod.mk.inj (Option.some.inj (hn.symm.trans hn'))
        rw [h] at hf ⊢
        rw [h'] at hok ⊢
        exact (ih hinner hok hf).within _ _
      · simp [hn] at hn'
      · simp [hn] at hn'
      · simp [h'] at hok

theorem Collection.leaves_before {cat : Catalog} {edit before : CollectionEdit} {c : Collection}
    {f : Fault} (hbefore : edit.before? = some before)
    (hok : (c.perform cat before).result = .ok ()) (hf : (c.perform cat edit).result = .error f) :
    (c.perform cat before).Leaves (c.perform cat edit) := by
  have hinsert : ∀ ix item, (c.insert cat ix item).result = .error f →
      (Edited.done () c none).Leaves (c.insert cat ix item) := by
    intro ix item hf
    rcases insert_eq cat c ix item with ⟨-, h⟩ | ⟨-, e, h⟩
    · simp [h] at hf
    · simp [h, Edited.Leaves]
  cases edit with
  | touch => cases hbefore
  | insert ix item =>
    obtain rfl := Option.some.inj hbefore
    exact hinsert ix item hf
  | push item =>
    obtain rfl := Option.some.inj hbefore
    exact hinsert _ item hf
  | remove ix =>
    cases h : c.entries[ix]? <;> simp [perform, remove, h, Edited.map, Except.map] at hf
  | clear => cases hf
  | item ix edit =>
    obtain rfl := Option.some.inj hbefore
    cases hentry : c.entries[ix]? with
    | none => simp [perform, editItem?, hentry] at hf
    | some entry =>
      cases hinner : edit.before? with
      | none =>
        obtain rfl := CompositeEdit.eq_touch hinner
        simp [perform, editItem?, hentry, Composite.perform] at hf
      | some inner =>
        simp only [hinner, Option.map_some, Option.getD_some, perform, editItem?, hentry,
          Edited.result_within] at hok hf ⊢
        exact (Composite.leaves_before hinner hok hf).within _ _

namespace Value
variable {cat : Catalog} {e before : ValueEdit} {v : Value}

theorem leaves_before {r r' : Edited Value Unit} {f : Fault} (hbefore : e.before? = some before)
    (hr : v.perform cat e = some r) (hr' : v.perform cat before = some r')
    (hok : r'.result = .ok ()) (hf : r.result = .error f) : r'.Leaves r := by
  cases e with
  | composite e =>
    obtain ⟨e', he, rfl⟩ := Option.map_eq_some_iff.mp hbefore
    cases v with
    | composite c =>
      obtain rfl := Option.some.inj hr
      obtain rfl := Option.some.inj hr'
      exact (Composite.leaves_before he hok hf).within _ _
    | _ => cases hr
  | collection e =>
    obtain ⟨e', he, rfl⟩ := Option.map_eq_some_iff.mp hbefore
    cases v with
    | collection c =>
      obtain rfl := Option.some.inj hr
      obtain rfl := Option.some.inj hr'
      exact (Collection.leaves_before he hok hf).within _ _
    | _ => cases hr

/-- The calls before the last one are meant for values of the same kind. -/
theorem perform_before_eq_none_iff (hbefore : e.before? = some before) :
    v.perform cat before = none ↔ v.perform cat e = none := by
  cases e <;> obtain ⟨e', -, rfl⟩ := Option.map_eq_some_iff.mp hbefore <;> cases v <;> simp [perform]

theorem perform_copy_attach_eq_none_iff (l : Link) :
    (v.copy.attach l).perform cat e = none ↔ v.perform cat e = none := by
  cases e <;> cases v <;> simp [copy, attach, perform]

/-- A value that is only reached is there to be reached. -/
theorem perform_result_of_before_eq_none {r : Edited Value Unit} (hbefore : e.before? = none)
    (hr : v.perform cat e = some r) : r.result = .ok () := by
  cases e with
  | composite e =>
    obtain rfl := CompositeEdit.eq_touch (Option.map_eq_none_iff.mp hbefore)
    cases v <;> cases hr
    rfl
  | collection e =>
    obtain rfl := CollectionEdit.eq_touch (Option.map_eq_none_iff.mp hbefore)
    cases v <;> cases hr
    rfl

end Value

def Operation.IsMutation : Operation → Prop
  | .set .. | .delete _ | .edit .. => True
  | .clear | .load .. | .markSaved => False

namespace LocalCopy
variable {cat : Catalog} {o o' : LocalCopy} {p q : Property} {slot : Nat}

/-- What the calls before the last one of an operation do. -/
def beforeLast (cat : Catalog) (o : LocalCopy) : Operation → Edited LocalCopy Unit
  | .edit p e =>
    match e.before? with
    | some before => o.edit cat p before
    | none => .done () o none
  | _ => .done () o none

/-- Nobody who asks about properties, creates the object or updates it can tell two copies
apart. -/
structure Indistinct (cat : Catalog) (o o' : LocalCopy) : Prop where
  contains : ∀ p, o.contains p = o'.contains p
  loaded : ∀ p, o.isLoaded p = o'.isLoaded p
  modified : ∀ p, o.isModified p = o'.isModified p
  deleted : ∀ p, o.isDeleted p = o'.isDeleted p
  isNew : o.isNew = o'.isNew
  get : ∀ p, o.get p = o'.get p
  encode : ∀ isUpdate, o.encode cat isUpdate = o'.encode cat isUpdate

/-- The last call of an operation has changed nothing that can be asked for, and reported nothing. -/
def LeavesNoTrace (cat : Catalog) (o : LocalCopy) (op : Operation) : Prop :=
  Indistinct cat (o.beforeLast cat op).state (o.perform cat op).state ∧
    (o.beforeLast cat op).signals = (o.perform cat op).signals

/-- An operation makes a property that is created on read have its default, and then asks for a value
of another kind. -/
def CreatesUnfit (cat : Catalog) (o : LocalCopy) (op : Operation) : Prop :=
  ∃ p e slot q v, op = .edit p e ∧ o.resolve p = .ok (slot, q) ∧ o.checkMutable q = .ok () ∧
    o.values.get? slot = none ∧ o.deleted.contains slot = false ∧ q.default? = some v ∧
    q.has .autoCreate o.version = true ∧ v.perform cat e = none

theorem instantiate_created {v : Value} (hr : o.resolve p = .ok (slot, q))
    (hm : o.checkMutable q = .ok ()) (hnone : o.values.get? slot = none)
    (hdeleted : o.deleted.contains slot = false) (hdefault : q.default? = some v)
    (hauto : q.has .autoCreate o.version = true) :
    o.instantiate p = .ok (slot, q, o.created slot v) := by
  simp [instantiate, hr, hm, bind, Except.bind, SlotMap.contains, hnone, hdefault, hauto, hdeleted,
    created]

theorem Indistinct.of_eq (h : o = o') : Indistinct cat o o' := by
  subst h
  exact ⟨fun _ => rfl, fun _ => rfl, fun _ => rfl, fun _ => rfl, rfl, fun _ => rfl, fun _ => rfl⟩

theorem leaves_storeEdited {r r' : Edited Value Unit} (h : r.Leaves r') :
    (o.storeEdited slot r).Leaves (o.storeEdited slot r') := by
  obtain ⟨hstate, hsignals⟩ := h
  simp [Edited.Leaves, storeEdited, hstate, hsignals]

/-- An edit of a value of the wrong kind fails with the value in place. -/
theorem edit_refused (hi : o.instantiate p = .ok (slot, q, o')) {e : ValueEdit}
    (hnone : ∀ v, o'.values.get? slot = some v → v.perform cat e = none) :
    ∃ f, o.edit cat p e = .failed f o' := by
  rcases edit_eq cat o p e with ⟨f, hi', -⟩ | ⟨slot', q', o'', hi', hcase⟩
  · rw [hi] at hi'
    cases hi'
  · obtain ⟨rfl, rfl, rfl⟩ : slot = slot' ∧ q = q' ∧ o' = o'' := by
      rw [hi] at hi'
      simpa using hi'
    rcases hcase with ⟨v, r, hv, hr, -⟩ | ⟨-, hf⟩
    · rw [hnone v hv] at hr
      cases hr
    · exact hf

theorem edit_stored (hi : o.instantiate p = .ok (slot, q, o')) {e : ValueEdit} {v : Value}
    {r : Edited Value Unit} (hv : o'.values.get? slot = some v) (hr : v.perform cat e = some r) :
    o.edit cat p e = o'.storeEdited slot r := by
  rcases edit_eq cat o p e with ⟨f, hi', -⟩ | ⟨slot', q', o'', hi', hcase⟩
  · rw [hi] at hi'
    cases hi'
  · obtain ⟨rfl, rfl, rfl⟩ : slot = slot' ∧ q = q' ∧ o' = o'' := by
      rw [hi] at hi'
      simpa using hi'
    rcases hcase with ⟨w, r', hw, hr', h⟩ | ⟨hnone, -⟩
    · obtain rfl := Option.some.inj (hv.symm.trans hw)
      rw [h, Option.some.inj (hr.symm.trans hr')]
    · rw [hnone v hv] at hr
      cases hr

theorem edit_leaves_before {e : ValueEdit} {f : Fault}
    (hok : (o.beforeLast cat (.edit p e)).result = .ok ())
    (hf : (o.edit cat p e).result = .error f) (hfit : ¬ CreatesUnfit cat o (.edit p e)) :
    (o.beforeLast cat (.edit p e)).Leaves (o.edit cat p e) := by
  unfold beforeLast at hok ⊢
  rcases edit_eq cat o p e with ⟨g, hi, h⟩ | ⟨slot, q, o', hi, ⟨v, r, hv, hr, h⟩ | ⟨hnone, g, h⟩⟩
  · cases hbefore : e.before? with
    | none => simp [h, hbefore, Edited.Leaves]
    | some before =>
      rcases edit_eq cat o p before with ⟨g', -, h'⟩ | ⟨slot, q, o', hi', -⟩
      · simp [hbefore, h'] at hok
      · rw [hi] at hi'
        cases hi'
  · rw [h] at hf ⊢
    cases hbefore : e.before? with
    | none =>
      have := Value.perform_result_of_before_eq_none hbefore hr
      simp [storeEdited, this] at hf
    | some before =>
      cases hr' : v.perform cat before with
      | none =>
        rw [(Value.perform_before_eq_none_iff hbefore).mp hr'] at hr
        cases hr
      | some r' =>
        have h' := edit_stored hi hv hr'
        simp only [hbefore, h'] at hok ⊢
        exact leaves_storeEdited (Value.leaves_before hbefore hr hr' hok hf)
  · cases hbefore : e.before? with
    | none =>
      obtain ⟨hres, hm, ⟨-, rfl⟩ | ⟨v, hempty, hdeleted, hdefault, hauto, rfl⟩⟩ :=
        instantiate_eq_ok hi
      · simp [h, hbefore, Edited.Leaves]
      · have hunfit := hnone _ (by simp [created]; rfl)
        rw [Value.perform_copy_attach_eq_none_iff] at hunfit
        exact absurd ⟨p, e, slot, q, v, rfl, hres, hm, hempty, hdeleted, hdefault, hauto, hunfit⟩ hfit
    | some before =>
      have hnone' : ∀ v, o'.values.get? slot = some v → v.perform cat before = none := by
        intro v hv
        exact (Value.perform_before_eq_none_iff hbefore).mpr (hnone v hv)
      obtain ⟨g', h'⟩ := edit_refused hi hnone'
      simp [hbefore, h'] at hok

/-- A mutation whose last call fails leaves no trace of that call, unless it has created a value of
another kind than the one it asks for. -/
theorem failure_leavesNoTrace_iff (cat : Catalog) (o : LocalCopy) {op : Operation} {f : Fault}
    (hop : op.IsMutation) (hbefore : (o.beforeLast cat op).result = .ok ())
    (hf : (o.perform cat op).result = .error f) :
    LeavesNoTrace cat o op ↔ ¬ CreatesUnfit cat o op := by
  have hdelete : ∀ p, (o.delete p).result = .error f →
      (Edited.done () o none).Leaves (o.delete p) := by
    intro p hf
    rcases delete_eq o p with ⟨g, h⟩ | ⟨slot, q, -, -, -, h⟩
    · rw [h]
      exact ⟨rfl, rfl⟩
    · rw [h] at hf
      cases hf
  constructor
  -- Whether the slot holds a value tells the state with the default from the one without.
  · rintro ⟨hsame, -⟩ ⟨p, e, slot, q, v, rfl, hr, hm, hnone, hdeleted, hdefault, hauto, hunfit⟩
    have hi := instantiate_created hr hm hnone hdeleted hdefault hauto
    have hrefused : ∀ e, v.perform cat e = none →
        ∃ g, o.edit cat p e = .failed g (o.created slot v) := by
      intro e hunfit
      refine edit_refused hi ?_
      intro w hw
      obtain rfl : v.copy.attach (o.link slot) = w := by simpa [created] using hw
      exact (Value.perform_copy_attach_eq_none_iff _).mpr hunfit
    obtain ⟨g, h⟩ := hrefused e hunfit
    cases hlast : e.before? with
    | none =>
      have hcontains := hsame.contains p
      simp [beforeLast, hlast, perform, h, contains, slotIs, (resolve_eq_ok_iff.mp hr).1,
        SlotMap.contains, hnone, created] at hcontains
    | some before =>
      obtain ⟨g', h'⟩ := hrefused before ((Value.perform_before_eq_none_iff hlast).mpr hunfit)
      simp [beforeLast, hlast, h'] at hbefore
  · intro hfit
    have hleaves : (o.beforeLast cat op).Leaves (o.perform cat op) := by
      cases op with
      | set p v =>
        cases hv : v.isNull with
        | true =>
          obtain rfl : v = .null := by
            cases v <;> first | rfl | cases hv
          exact hdelete p hf
        | false =>
          rcases set_eq o p hv with ⟨g, h⟩ | ⟨slot, q, v', -, -, -, h⟩
          · simp [beforeLast, perform, h, Edited.Leaves]
          · simp [perform, h] at hf
      | delete p => exact hdelete p hf
      | edit p e => exact edit_leaves_before hbefore hf hfit
      | _ => exact hop.elim
    exact ⟨.of_eq hleaves.1, hleaves.2⟩

/-- Somebody invited to a meeting does not fit among the permissions of a folder. -/
def misplaced : Operation :=
  .edit Mail.Folder.permissionSet (.collection (.push (Mail.invitee "Accept")))

theorem misplaced_leavesNoTrace_iff :
    misplaced.IsMutation ∧
    ((new 0 Mail.Folder.type Mail.session).beforeLast (Mail.catalog []) misplaced).result = .ok () ∧
    ((new 0 Mail.Folder.type Mail.session).perform (Mail.catalog []) misplaced).result =
      .error (.typeMismatch "Permission") ∧
    (LeavesNoTrace (Mail.catalog []) (new 0 Mail.Folder.type Mail.session) misplaced ↔
      ¬ CreatesUnfit (Mail.catalog []) (new 0 Mail.Folder.type Mail.session) misplaced) :=
  ⟨trivial, rfl, rfl, @failure_leavesNoTrace_iff (Mail.catalog [])
    (new 0 Mail.Folder.type Mail.session) misplaced (.typeMismatch "Permission") trivial rfl rfl⟩

def mistaken : Operation := .edit Mail.Folder.permissionSet (.composite .touch)

/-- The folder has no permissions before that call, which fails, and has some after it. -/
theorem mistaken_leavesTrace :
    ((new 0 Mail.Folder.type Mail.session).beforeLast (Mail.catalog []) mistaken).result = .ok () ∧
    ((new 0 Mail.Folder.type Mail.session).perform (Mail.catalog []) mistaken).result =
      .error (.typeMismatch "PermissionSet") ∧
    ¬ LeavesNoTrace (Mail.catalog []) (new 0 Mail.Folder.type Mail.session) mistaken := by
  refine ⟨rfl, rfl, ?_⟩
  rintro ⟨hsame, -⟩
  exact absurd (hsame.contains Mail.Folder.permissionSet) (by decide)

end LocalCopy

end ObjectTracking
