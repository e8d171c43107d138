import ObjectTracking.Proofs.Collection.Deltas
import ObjectTracking.Proofs.LocalCopy.Gates
import ObjectTracking.Proofs.LocalCopy.PropertyOperation
/-!
Operations on different properties have nothing to do with each other. Each of them gives the same
result whatever is done to other properties before it, and the copy that two sequences of operations
lead to does not depend on how they are interleaved.
-/
set_option autoImplicit false

namespace ObjectTracking

namespace LocalCopy
variable {cat : Catalog} {strays : Set Link} {α : Type} {o o' : LocalCopy} {p q : Property}
  {m slot : Nat} {c : Cell} {a b : PropertyOperation α} {xs ys zs : List (PropertyOperation α)}

def after (o : LocalCopy) : List (PropertyOperation α) → LocalCopy
  | [] => o
  | op :: ops => (o.apply op).state.after ops

def answers (o : LocalCopy) :
    List (PropertyOperation α) → List (PropertyOperation α × Except Fault (Option α) × List Link)
  | [] => []
  | op :: ops => (op, (o.apply op).result, (o.apply op).signals) :: (o.apply op).state.answers ops

theorem slotOf?_ne (h : p.address ≠ q.address) (hp : o.type.slotOf? p = some slot) :
    o.type.slotOf? q ≠ some slot := by
  intro hq
  obtain ⟨r, hr, hrp⟩ := ObjectType.slotOf?_eq_some hp
  obtain ⟨r', hr', hrq⟩ := ObjectType.slotOf?_eq_some hq
  obtain rfl := Option.some.inj (hr.symm.trans hr')
  exact h (hrp.symm.trans hrq)

/-- An operation on one property commutes with one on another, which gives the same result before and
after it. -/
theorem apply_apply (htied : Tied o) (h : a.property.address ≠ b.property.address) :
    (o.apply a).state.apply b = (o.apply b).within [] fun o' => (o'.apply a).state := by
  rcases apply_writesOnly htied a with ha | ⟨m, c, hm, ha⟩
  · have hstate : ((o.apply b).state.apply a).state = (o.apply b).state := by
      rcases apply_writesOnly htied b with hb | ⟨n, d, hn, hb⟩
      · rw [hb, ha]
      · rw [hb, apply_put htied (slotOf?_ne (Ne.symm h) hn)]
        exact congrArg (LocalCopy.put · n d) ha
    rw [ha]
    exact congrArg (Edited.mk _ · _) hstate.symm
  · have hstate : ((o.apply b).state.apply a).state = (o.apply b).state.put m c := by
      rcases apply_writesOnly htied b with hb | ⟨n, d, hn, hb⟩
      · rw [hb, ha]
      · have hmn : m ≠ n := by
          rintro rfl
          exact slotOf?_ne h hm hn
        rw [hb, apply_put htied (slotOf?_ne (Ne.symm h) hn), put_comm (Ne.symm hmn)]
        exact congrArg (LocalCopy.put · n d) ha
    rw [ha, apply_put htied (slotOf?_ne h hm)]
    exact congrArg (Edited.mk _ · _) hstate.symm

/-- Operations that name no property in common. -/
def Apart (xs ys : List (PropertyOperation α)) : Prop :=
  ∀ x ∈ xs, ∀ y ∈ ys, x.property.address ≠ y.property.address

/-- Operations on other properties give the same after an operation as before it. -/
theorem answers_apply (cat : Catalog) (htied : Tied o) {a : PropertyOperation α}
    (h : ∀ y ∈ ys, a.property.address ≠ y.property.address) :
    (o.apply a).state.answers ys = o.answers ys := by
  induction ys generalizing o with
  | nil => rfl
  | cons y ys ih =>
    have hcomm := apply_apply htied (h y List.mem_cons_self)
    have hrest := ih (htied.apply cat y) fun z hz => h z (List.mem_cons_of_mem y hz)
    simp only [answers, hcomm, Edited.result_within, Edited.signals_within, Edited.state_within,
      List.nil_append, hrest]

theorem after_apply (cat : Catalog) (htied : Tied o) {b : PropertyOperation α}
    (h : ∀ x ∈ xs, x.property.address ≠ b.property.address) :
    ((o.after xs).apply b).state = (o.apply b).state.after xs := by
  induction xs generalizing o with
  | nil => rfl
  | cons x xs ih =>
    have hcomm := apply_apply htied (h x List.mem_cons_self)
    have hrest := ih (htied.apply cat x) fun z hz => h z (List.mem_cons_of_mem x hz)
    calc ((o.after (x :: xs)).apply b).state
        = ((o.apply x).state.apply b).state.after xs := hrest
      _ = ((o.apply b).state.apply x).state.after xs := by rw [hcomm, Edited.state_within]

/-- Two sequences of operations give the same however they are interleaved, and lead to the same
copy. -/
theorem interleaved (cat : Catalog) (htied : Tied o) (h : Apart xs ys) (hzs : Interleaves xs ys zs) :
    Interleaves (o.answers xs) (o.answers ys) (o.answers zs) ∧
      o.after zs = (o.after xs).after ys := by
  induction hzs generalizing o with
  | nil => exact ⟨.nil, rfl⟩
  | @left a xs ys zs _ ih =>
    have hnext : Apart xs ys := fun x hx => h x (List.mem_cons_of_mem a hx)
    obtain ⟨hanswers, hstate⟩ := ih (htied.apply cat a) hnext
    rw [answers_apply cat htied (h a List.mem_cons_self)] at hanswers
    exact ⟨.left _ hanswers, hstate⟩
  | @right b xs ys zs _ ih =>
    have hb : ∀ x ∈ xs, x.property.address ≠ b.property.address :=
      fun x hx => h x hx b List.mem_cons_self
    have hnext : Apart xs ys := fun x hx y hy => h x hx y (List.mem_cons_of_mem b hy)
    obtain ⟨hanswers, hstate⟩ := ih (htied.apply cat b) hnext
    rw [answers_apply cat htied fun x hx => Ne.symm (hb x hx)] at hanswers
    -- The operation came first here, but in the end the whole other sequence stands before it.
    refine ⟨.right _ hanswers, hstate.trans ?_⟩
    rw [← after_apply cat htied hb]
    rfl

/-- Whatever is asked of two copies about a property, they answer alike. -/
structure AnswersAlike (o o' : LocalCopy) (p : Property) : Prop where
  get : o'.get p = o.get p
  contains : o'.contains p = o.contains p
  isLoaded : o'.isLoaded p = o.isLoaded p
  isModified : o'.isModified p = o.isModified p
  isDeleted : o'.isDeleted p = o.isDeleted p

theorem answersAlike_put (h : o.type.slotOf? p ≠ some m) (c : Cell) :
    AnswersAlike o (o.put m c) p := by
  have hslot : ∀ {test test' : Nat → Bool}, (∀ n, n ≠ m → test' n = test n) →
      (o.put m c).slotIs p test' = o.slotIs p test := by
    intro test test' htest
    unfold slotIs
    rw [type_put]
    cases hp : o.type.slotOf? p with
    | none => rfl
    | some n =>
      refine htest n ?_
      rintro rfl
      exact h hp
  refine ⟨get_put h, hslot ?_, hslot ?_, hslot ?_, hslot ?_⟩
  all_goals
    intro n hn
    simp [put, SlotMap.contains, isDirty, hn]

theorem answersAlike_apply (htied : Tied o) {x : PropertyOperation α}
    (h : x.property.address ≠ p.address) : AnswersAlike o (o.apply x).state p := by
  rcases apply_writesOnly htied x with hx | ⟨m, c, hm, hx⟩
  · rw [hx]
    exact ⟨rfl, rfl, rfl, rfl, rfl⟩
  · rw [hx]
    exact answersAlike_put (slotOf?_ne h hm) c

/-- Operations change nothing about the properties that they do not name. -/
theorem answersAlike_after (cat : Catalog) (htied : Tied o)
    (h : ∀ x ∈ xs, x.property.address ≠ p.address) : AnswersAlike o (o.after xs) p := by
  induction xs generalizing o with
  | nil => exact ⟨rfl, rfl, rfl, rfl, rfl⟩
  | cons x xs ih =>
    have hfirst := answersAlike_apply htied (h x List.mem_cons_self)
    have hrest := ih (htied.apply cat x) fun z hz => h z (List.mem_cons_of_mem x hz)
    exact ⟨hrest.get.trans hfirst.get, hrest.contains.trans hfirst.contains,
      hrest.isLoaded.trans hfirst.isLoaded, hrest.isModified.trans hfirst.isModified,
      hrest.isDeleted.trans hfirst.isDeleted⟩

/-- Two sequences of operations that have nothing to do with each other. -/
structure Independent (o : LocalCopy) (xs ys : List (PropertyOperation α)) : Prop where
  /-- Interleaved in any way, each operation gives and reports what it does in its own sequence. -/
  answers : ∀ zs, Interleaves xs ys zs →
    Interleaves (o.answers xs) (o.answers ys) (o.answers zs)
  /-- The copy in the end, and so whatever is read from it and written for it, is the same. -/
  state : ∀ zs, Interleaves xs ys zs → o.after zs = (o.after xs).after ys
  first : ∀ p : Property, (∀ x ∈ xs, x.property.address ≠ p.address) → AnswersAlike o (o.after xs) p
  second : ∀ p : Property, (∀ y ∈ ys, y.property.address ≠ p.address) →
    AnswersAlike o (o.after ys) p

/-- Operations on different properties are independent of each other, whatever was done to the copy
before. -/
theorem Reachable.independent {id : Nat} {type : ObjectType} {session : Session}
    (h : Reachable cat strays (new id type session) o) (hapart : Apart xs ys) :
    Independent o xs ys := by
  have htied : Tied o := h.tied (.clear (new id type session))
  exact ⟨fun _ hzs => (interleaved cat htied hapart hzs).1,
    fun _ hzs => (interleaved cat htied hapart hzs).2,
    fun _ => answersAlike_after cat htied, fun _ => answersAlike_after cat htied⟩

/-- Somebody else is invited to a meeting, and the one who was is taken off the list. -/
def invitations : List (PropertyOperation Unit) :=
  [.collection Mail.Calendar.requiredAttendees
      (Collection.perform (Mail.catalog []) (.push (Mail.invitee "Tentative")))
      (Collection.own_perform (Mail.catalog []) _),
    .collection Mail.Calendar.requiredAttendees
      (Collection.perform (Mail.catalog []) (.remove 0))
      (Collection.own_perform (Mail.catalog []) _)]

/-- The meeting is moved, with one attempt that fails. -/
def relocations : List (PropertyOperation Unit) :=
  [.set Mail.Calendar.location (.scalar (.text "Upstairs")),
    .composite Mail.Calendar.startTimeZone
      (Composite.perform (Mail.catalog []) (.set "Mailbox" .null))
      (Composite.own_perform (Mail.catalog []) _)]

theorem invitations_independent :
    Reachable (Mail.catalog []) ∅ (new 0 Mail.Calendar.type Mail.session) smallMeeting ∧
    Apart invitations relocations ∧ Independent smallMeeting invitations relocations := by
  have hreachable : Reachable (Mail.catalog []) ∅ (new 0 Mail.Calendar.type Mail.session)
      smallMeeting := .perform .same _
  have hapart : Apart invitations relocations := by
    have haddresses : ∀ a ∈ invitations.map fun x => x.property.address,
        ∀ b ∈ relocations.map fun y => y.property.address, a ≠ b := by decide
    intro x hx y hy
    exact haddresses _ (List.mem_map_of_mem hx) _ (List.mem_map_of_mem hy)
  exact ⟨hreachable, hapart, hreachable.independent hapart⟩

end LocalCopy

end ObjectTracking
