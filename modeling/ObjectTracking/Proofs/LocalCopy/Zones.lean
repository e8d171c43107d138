import ObjectTracking.Proofs.LocalCopy.Cell
import ObjectTracking.Proofs.LocalCopy.History
import ObjectTracking.Proofs.LocalCopy.Placed
import ObjectTracking.Proofs.LocalCopy.Saved
import ObjectTracking.Proofs.Mail
/-!
The zones of the date-times that are sent. A new object has instants, seen from the zone of the
session, and so has an update for a legacy server. Otherwise an update has the instants of the zone
that was changed along with a date-time; without such a zone the time is sent as it is.
-/
set_option autoImplicit false

namespace ObjectTracking
open Markup
open Time (Offset Stamp WallClock)

namespace Event
variable {events : List Event} {slot : Nat}

/-- The value of a slot was assigned or changed in place since everything was last settled, which a
load, a save or a clearing does. -/
def Altered (events : List Event) (slot : Nat) : Prop :=
  .assigned slot ∈ recent events ∨ .edited slot ∈ recent events

theorem whole?_eq_assigned_iff {event : Event} :
    whole? slot event = some .assigned ↔ event = .assigned slot := by
  cases event <;> simp [whole?]

theorem assigned_mem_recent (h : lastWhole events slot = some .assigned) :
    .assigned slot ∈ recent events := by
  obtain ⟨event, hmem, hwhole⟩ := List.exists_of_findSome?_eq_some h
  rwa [whole?_eq_assigned_iff.mp hwhole] at hmem

theorem assigned_not_mem_recent (h : lastWhole events slot = none) :
    .assigned slot ∉ recent events := by
  intro hmem
  have hwhole := whole?_eq_assigned_iff.mpr (rfl : Event.assigned slot = .assigned slot)
  rw [List.findSome?_eq_none_iff.mp h _ hmem] at hwhole
  cases hwhole

theorem editedInPlace_iff : editedInPlace events slot = true ↔ .edited slot ∈ recent events := by
  rw [editedInPlace, List.contains_iff_mem]

end Event

open Event

namespace LocalCopy
variable {cat : Catalog} {o : LocalCopy} {q : Property} {slot : Nat} {events : List Event}

/-- Which values count as changed is what the events say. -/
structure Tells (events : List Event) (o : LocalCopy) : Prop where
  clean : ∀ slot, o.isDirty slot = false → ¬ Altered events slot
  dirty : ∀ slot v, o.isDirty slot = true → o.values.get? slot = some v → Altered events slot
  deleted : ∀ slot, o.deleted.contains slot = true → o.values.get? slot = none

theorem Tells.isDirty (h : Tells events o) (haltered : Altered events slot) :
    o.isDirty slot = true := by
  cases hdirty : o.isDirty slot with
  | false => exact absurd haltered (h.clean slot hdirty)
  | true => rfl

/-- A value that was altered is sent whole unless it is a collection. -/
theorem Tells.slotOps (h : Tells events o) (haltered : Altered events slot) {s : Scalar}
    (hv : o.values.get? slot = some (.scalar s)) (happlicable : q.isApplicable o.version = true) :
    o.slotOps slot q = [.set q (.scalar s)] := by
  have hkept : o.deleted.contains slot = false := by
    cases hdeleted : o.deleted.contains slot with
    | false => rfl
    | true => cases (h.deleted slot hdeleted).symm.trans hv
  have hdirty := h.isDirty haltered
  simp only [LocalCopy.isDirty, hkept, Bool.or_false, Bool.or_eq_true] at hdirty
  simp only [LocalCopy.slotOps, happlicable, hkept, hv]
  rcases hdirty with hassigned | htouched
  · simp [hassigned]
  · simp [htouched]

theorem Records.tells (h : Records events o) (hs : Sound o) : Tells events o := by
  refine ⟨?_, ?_, hs.deleted⟩
  · intro slot hclean haltered
    simp only [isDirty, Bool.or_eq_false_iff] at hclean
    obtain ⟨⟨hassigned, hdeleted⟩, htouched⟩ := hclean
    have hnone : lastWhole events slot = none := by
      cases hlast : lastWhole events slot with
      | none => rfl
      | some whole =>
        cases whole with
        | assigned => simp [(h.assigned slot).mpr hlast] at hassigned
        | deleted => simp [(h.deleted slot).mpr hlast] at hdeleted
    rcases haltered with hmem | hmem
    · exact assigned_not_mem_recent hnone hmem
    · have hedited := (h.touched slot hnone).mpr (editedInPlace_iff.mpr hmem)
      simp [hedited] at htouched
  · intro slot v hdirty hv
    -- A slot with a value was not deleted, so its last change as a whole can only have assigned it.
    have hkept : o.deleted.contains slot = false := by
      cases hdeleted : o.deleted.contains slot with
      | false => rfl
      | true =>
        rw [hs.deleted slot hdeleted] at hv
        cases hv
    cases hlast : lastWhole events slot with
    | some whole =>
      cases whole with
      | assigned => exact .inl (assigned_mem_recent hlast)
      | deleted => simp [(h.deleted slot).mpr hlast] at hkept
    | none =>
      have hassigned : o.assigned.contains slot = false := by
        simpa [hlast] using h.assigned slot
      have htouched : o.touched.contains slot = true := by
        simpa [isDirty, hassigned, hkept] using hdirty
      exact .inr (editedInPlace_iff.mp ((h.touched slot hlast).mp htouched))

/-- A date-time follows a zone: its property is linked to a zone property outside dictionaries whose
value was assigned or changed in place, and has that base offset. -/
def FollowsZone (cat : Catalog) (events : List Event) (o : LocalCopy) (q : Property) (zone : Offset) :
    Prop :=
  ∃ uri slot z c, q.shape.innermost = .dateTime (some uri) ∧
    o.type.property? slot = some z ∧ z.address = ⟨uri, none⟩ ∧ Altered events slot ∧
      o.values.get? slot = some (.composite c) ∧
        c.get cat "BaseOffset" = .ok (.scalar (.offset zone))

theorem zoneUri?_eq_some_iff {uri : String} :
    q.zoneUri? = some uri ↔ q.shape.innermost = .dateTime (some uri) := by
  unfold Property.zoneUri?
  split
  · rename_i heq
    simp [heq]
  · rename_i hne
    simp only [reduceCtorEq, false_iff]
    exact hne _

theorem zoneOffset?_eq_some_iff {c : Composite} {zone : Offset} :
    c.zoneOffset? cat = some zone ↔ c.get cat "BaseOffset" = .ok (.scalar (.offset zone)) := by
  unfold Composite.zoneOffset?
  split
  · rename_i heq
    simp [heq]
  · rename_i hne
    simp only [reduceCtorEq, false_iff]
    exact hne _

theorem slotOfUri?_eq_some_iff {type : ObjectType} {uri : String}
    (h : (type.properties.map Property.address).Nodup) :
    type.slotOfUri? uri = some slot ↔
      ∃ z, type.property? slot = some z ∧ z.address = ⟨uri, none⟩ := by
  constructor
  · intro hslot
    obtain ⟨m, hm, haddress⟩ := ObjectType.mem_slots.mp (List.mem_of_getLast? hslot)
    exact ⟨m.property, ObjectType.property?_eq_some_iff.mpr ⟨m, hm, rfl⟩, beq_iff_eq.mp haddress⟩
  · rintro ⟨z, hz, haddress⟩
    have hfound := ObjectType.slotOf?_of_nodup h hz
    rwa [ObjectType.slotOf?, haddress] at hfound

theorem composite?_eq_some_iff {v : Value} {c : Composite} :
    v.composite? = some c ↔ v = .composite c := by
  cases v <;> simp [Value.composite?]

theorem linkedZone_eq_some_iff {zone : Offset} : o.linkedZone cat q = some zone ↔
    ∃ uri slot c, q.zoneUri? = some uri ∧ o.type.slotOfUri? uri = some slot ∧
      o.isDirty slot = true ∧ o.values.get? slot = some (.composite c) ∧
        c.zoneOffset? cat = some zone := by
  simp only [linkedZone, Option.bind_eq_bind, Option.bind_eq_some_iff,
    Option.ite_none_right_eq_some, composite?_eq_some_iff]
  constructor
  · rintro ⟨uri, huri, slot, hslot, hdirty, _, hc, c, rfl, hzone⟩
    exact ⟨uri, slot, c, huri, hslot, hdirty, hc, hzone⟩
  · rintro ⟨uri, slot, c, huri, hslot, hdirty, hc, hzone⟩
    exact ⟨uri, huri, slot, hslot, hdirty, _, hc, c, rfl, hzone⟩

/-- The zone that a date-time is sent in is the one that it follows. -/
theorem linkedZone_iff_followsZone (haddresses : (o.type.properties.map Property.address).Nodup)
    (h : Tells events o) {zone : Offset} :
    o.linkedZone cat q = some zone ↔ FollowsZone cat events o q zone := by
  rw [linkedZone_eq_some_iff]
  constructor
  · rintro ⟨uri, slot, c, huri, hslot, hdirty, hc, hzone⟩
    obtain ⟨z, hz, haddress⟩ := (slotOfUri?_eq_some_iff haddresses).mp hslot
    exact ⟨uri, slot, z, c, zoneUri?_eq_some_iff.mp huri, hz, haddress, h.dirty slot _ hdirty hc, hc,
      zoneOffset?_eq_some_iff.mp hzone⟩
  · rintro ⟨uri, slot, z, c, huri, hz, haddress, haltered, hc, hzone⟩
    exact ⟨uri, slot, c, zoneUri?_eq_some_iff.mpr huri,
      (slotOfUri?_eq_some_iff haddresses).mpr ⟨z, hz, haddress⟩, h.isDirty haltered, hc,
      zoneOffset?_eq_some_iff.mpr hzone⟩

/-- The zone of a date-time in an update, or none: that of the session for a legacy server, and
otherwise the one that it follows. -/
def UpdateZone (cat : Catalog) (events : List Event) (o : LocalCopy) (q : Property) :
    Option Offset → Prop
  | some zone =>
    if o.version.isLegacy then zone = o.session.zone else FollowsZone cat events o q zone
  | none => o.version.isLegacy = false ∧ ∀ zone, ¬ FollowsZone cat events o q zone

theorem updateZone_iff (haddresses : (o.type.properties.map Property.address).Nodup)
    (h : Tells events o) {zone? : Option Offset} : UpdateZone cat events o q zone? ↔
      WriteContext.zone ⟨o.session, true, o.linkedZone cat q⟩ = zone? := by
  have hfollows : ∀ zone, FollowsZone cat events o q zone ↔ o.linkedZone cat q = some zone :=
    fun zone => (linkedZone_iff_followsZone haddresses h).symm
  have hlegacy : o.version.isLegacy = o.session.version.isLegacy := rfl
  cases zone? with
  | none =>
    simp only [UpdateZone, hfollows, WriteContext.zone, scopingZone, hlegacy]
    cases o.session.version.isLegacy with
    | true => simp
    | false => simp [Option.eq_none_iff_forall_ne_some]
  | some zone =>
    simp only [UpdateZone, hfollows, WriteContext.zone, scopingZone, hlegacy]
    cases o.session.version.isLegacy with
    | true => simp [eq_comm]
    | false => simp

/-- The date-times of a copy are sent as what they are scoped to, wherever they stand. -/
structure SendsScoped (cat : Catalog) (events : List Event) (o : LocalCopy) : Prop where
  /-- A new object has every date-time that is held, if the version knows its property and the
  property can be given a value. -/
  create : ∀ {slot q t stamp}, o.type.property? slot = some q → q.IsDateTime →
    q.isApplicable o.version = true → q.has .settable o.version = true →
    o.values.get? slot = some (.scalar (.dateTime t)) →
    Stamp.Scoped t (some o.session.zone) stamp → ∃ row,
      o.encodeCreate cat = .element .types o.type.element row ∧
      o.Places cat ⟨o.session, false, none⟩ slot q (.call (.text (String.ofList stamp.text))) row
  /-- An update has every date-time that was altered. -/
  altered : ∀ {slot q t}, o.type.property? slot = some q → q.isApplicable o.version = true →
    Altered events slot → o.values.get? slot = some (.scalar (.dateTime t)) →
      ∃ before after, o.payload = before ++ .set q (.scalar (.dateTime t)) :: after
  update : ∀ {before after q t zone? stamp}, q.IsDateTime →
    o.payload = before ++ .set q (.scalar (.dateTime t)) :: after →
    UpdateZone cat events o q zone? → Stamp.Scoped t zone? stamp →
      o.encodeUpdate cat = .element .types "Updates" (.concat (before.map (o.encodeOp cat)) ++
        (o.encodeSetting q (.scalar (.dateTime t)) (.call (.text (String.ofList stamp.text))) ++
          .concat (after.map (o.encodeOp cat))))
  /-- There is one zone, or none. -/
  zone : ∀ q, ∃! zone?, UpdateZone cat events o q zone?

theorem Tells.sendsScoped (haddresses : (o.type.properties.map Property.address).Nodup)
    (h : Tells events o) (cat : Catalog) : SendsScoped cat events o := by
  refine ⟨?_, ?_, ?_, ?_⟩
  · intro slot q t stamp hq hdate happlicable hsettable hheld hstamp
    have hv := createValue?_eq_some_iff.mpr ⟨⟨happlicable, hsettable⟩, hheld⟩
    exact ⟨_, rfl, places hq hv (Property.encode_scoped hdate hstamp)
      fun hkey => Property.encodeEntry_scoped hdate hkey hstamp⟩
  · intro slot q t hq happlicable haltered hv
    obtain ⟨before, after, hpayload⟩ := payload_split hq
    rw [h.slotOps haltered hv happlicable] at hpayload
    exact ⟨before, after, hpayload⟩
  · intro before after q t zone? stamp hdate hpayload hzone hstamp
    rw [updateZone_iff haddresses h] at hzone
    subst hzone
    exact encodeUpdate_setting hpayload (Property.encode_scoped hdate hstamp)
  · intro q
    exact ⟨_, (updateZone_iff haddresses h).mpr rfl,
      fun zone? hzone => ((updateZone_iff haddresses h).mp hzone).symm⟩

def withValue (o : LocalCopy) (slot : Nat) (v? : Option Value) : LocalCopy :=
  { o with values := o.values.put slot v? }

@[simp] theorem isDirty_withValue {v? : Option Value} {n : Nat} :
    (o.withValue slot v?).isDirty n = o.isDirty n := rfl

theorem get?_withValue {v? : Option Value} {n : Nat} (h : n ≠ slot) :
    (o.withValue slot v?).values.get? n = o.values.get? n := by
  simp [withValue, h]

theorem Tells.withValue (h : Tells events o) (hclean : o.isDirty slot = false) (v? : Option Value) :
    Tells events (o.withValue slot v?) := by
  -- A dirty slot is not the one with the other value.
  have hkept : ∀ n, o.isDirty n = true → (o.withValue slot v?).values.get? n = o.values.get? n := by
    intro n hdirty
    refine get?_withValue ?_
    rintro rfl
    rw [hclean] at hdirty
    cases hdirty
  refine ⟨h.clean, ?_, ?_⟩
  · intro n v hdirty hv
    rw [hkept n hdirty] at hv
    exact h.dirty n v hdirty hv
  · intro n hdeleted
    rw [hkept n (by simp [LocalCopy.isDirty, show o.deleted.contains n = true from hdeleted])]
    exact h.deleted n hdeleted

/-- What is in a slot that was not changed is of no consequence for an update. -/
theorem encodeUpdate_withValue (hclean : o.isDirty slot = false) (v? : Option Value)
    (cat : Catalog) : (o.withValue slot v?).encodeUpdate cat = o.encodeUpdate cat := by
  have hslots : ∀ n q, (o.withValue slot v?).slotOps n q = o.slotOps n q := by
    intro n q
    by_cases hn : n = slot
    · subst hn
      rw [slotOps_of_clean hclean, slotOps_of_clean (o := o.withValue n v?) hclean]
    · unfold slotOps
      rw [get?_withValue hn]
      rfl
  have hpayload : (o.withValue slot v?).payload = o.payload := by
    unfold payload
    simp only [hslots]
    rfl
  have hzone : ∀ q, (o.withValue slot v?).linkedZone cat q = o.linkedZone cat q := by
    intro q
    refine Option.ext fun zone => ?_
    rw [linkedZone_eq_some_iff, linkedZone_eq_some_iff]
    refine exists_congr fun uri => exists_congr fun n => exists_congr fun c =>
      and_congr_right fun _ => and_congr_right fun _ => and_congr_right fun hdirty => ?_
    have hne : n ≠ slot := by
      rintro rfl
      rw [isDirty_withValue, hclean] at hdirty
      cases hdirty
    rw [get?_withValue hne]
  unfold encodeUpdate
  rw [hpayload]
  simp only [hzone]
  rfl

/-- In a new object, and in an update for a legacy server, every date-time is sent as the instant that
it shows in the zone of the session. In any other update it is sent as the instant that it shows in
the zone that it follows, and as it is if it follows none; what a zone is that was not changed makes
no difference. There is one thing to send, and it is read again from its text. -/
theorem run_sendsScoped (cat : Catalog) {id : Nat} {type : ObjectType} {session : Session}
    (haddresses : (type.properties.map Property.address).Nodup) {ops : List Operation}
    (hrun : (new id type session).run cat ops = o)
    (hhistory : (new id type session).history cat ops = events) :
    SendsScoped cat events o ∧
    (∀ slot v?, o.isDirty slot = false →
      (o.withValue slot v?).encodeUpdate cat = o.encodeUpdate cat ∧
        SendsScoped cat events (o.withValue slot v?)) ∧
    ∀ t zone? stamp, Stamp.Scoped t zone? stamp →
      (∀ stamp', Stamp.Scoped t zone? stamp' → stamp' = stamp) ∧
        (stamp.wallClock.Writable → Stamp.parse? stamp.text = some stamp) := by
  have hstart : Records [] (new id type session) := by
    refine ⟨?_, ?_, ?_⟩ <;> simp [new, lastWhole, editedInPlace, recent]
  have hsound : Sound (new id type session) := .new id type session
  have hrecords := hstart.run cat hsound ops
  have hsound' : Sound ((new id type session).run cat ops) := hsound.run ops
  have htype : o.type = type := by
    rw [← hrun]
    exact (run_same cat (new id type session) ops).2.1
  rw [List.nil_append, hhistory, hrun] at hrecords
  rw [hrun] at hsound'
  rw [← htype] at haddresses
  have htells := hrecords.tells hsound'
  refine ⟨htells.sendsScoped haddresses cat, ?_,
    fun t zone? stamp hstamp => ⟨fun _ => hstamp.unique, hstamp.parse?_text⟩⟩
  intro slot v? hclean
  have htells' := htells.withValue hclean v?
  exact ⟨encodeUpdate_withValue hclean v? cat, htells'.sendsScoped (by exact haddresses) cat⟩

section Meeting
open Mail

def june : Time.Date := ⟨2021, 6, 1, by decide, by decide, by decide⟩

def pastOne : WallClock := ⟨june, 3600, 500000000, by decide, by decide⟩

def pastThree : WallClock := ⟨june, 10800, 500000000, by decide, by decide⟩

def pastTen : WallClock := ⟨june, 36000, 500000000, by decide, by decide⟩

def bangkok : Offset := ⟨25200, by decide⟩

def tokyo : Offset := ⟨32400, by decide⟩

def zoneIn (zone : Offset) : Composite :=
  .mk timeZone none [.scalar (.text "Zone"), .unset, .scalar (.offset zone)]

/-- A meeting is saved with a zone, whose offset is corrected when its time is set. -/
def overseas : List Operation :=
  [.load (meeting ["Accept"]) true {} false,
    .set Calendar.startTimeZone (.composite (zoneIn bangkok)), .markSaved,
    .edit Calendar.startTimeZone (.composite (.set "BaseOffset" (.scalar (.offset tokyo)))),
    .set Calendar.start (.scalar (.dateTime pastTen))]

def overseasMeeting : LocalCopy := (new 0 Calendar.type Mail.session).run (catalog []) overseas

def bangkokSession : Session := ⟨.newest, bangkok, true⟩

def proposed : List Operation := [.set Calendar.start (.scalar (.dateTime pastTen))]

def proposedMeeting : LocalCopy := (new 0 Calendar.type bangkokSession).run (catalog []) proposed

/-- The time of the one is that in Tokyo, where it is still night in UTC; that of the other is two
hours later. -/
theorem overseasMeeting_sendsScoped :
    (Calendar.type.properties.map Property.address).Nodup ∧
    (∃ after, overseasMeeting.payload = .set Calendar.start (.scalar (.dateTime pastTen)) :: after ∧
      overseasMeeting.encodeUpdate (catalog []) = .element .types "Updates"
        (overseasMeeting.encodeSetting Calendar.start (.scalar (.dateTime pastTen))
          (.call (.text "2021-06-01T01:00:00.500Z")) ++
            .concat (after.map (overseasMeeting.encodeOp (catalog []))))) ∧
    ∃ row, proposedMeeting.encodeCreate (catalog []) = .element .types Calendar.type.element row ∧
      proposedMeeting.Places (catalog []) ⟨bangkokSession, false, none⟩ 5 Calendar.start
        (.call (.text "2021-06-01T03:00:00.500Z")) row := by
  have haddresses : (Calendar.type.properties.map Property.address).Nodup := by decide
  have hrun : (new 0 Calendar.type Mail.session).run (catalog []) overseas = overseasMeeting := rfl
  have hsends := (run_sendsScoped (catalog []) haddresses hrun rfl).1
  have hzone : UpdateZone (catalog [])
      ((new 0 Calendar.type Mail.session).history (catalog []) overseas) overseasMeeting Calendar.start
      (some tokyo) :=
    ⟨"calendar:StartTimeZone", 11, Calendar.startTimeZone, _, rfl, rfl, rfl, .inr (by decide), rfl,
      rfl⟩
  have hshows : WallClock.IsInstant tokyo pastTen pastOne := ⟨by decide, rfl⟩
  have htext : String.ofList (Stamp.absolute pastOne Offset.utc).text = "2021-06-01T01:00:00.500Z" := by
    decide
  have hpayload : overseasMeeting.payload =
      [] ++ .set Calendar.start (.scalar (.dateTime pastTen)) :: _ := rfl
  have hsent := hsends.update ⟨_, rfl⟩ hpayload hzone (.instant hshows)
  rw [htext] at hsent
  have hproposed : (new 0 Calendar.type bangkokSession).run (catalog []) proposed = proposedMeeting :=
    rfl
  have hcreates := (run_sendsScoped (catalog []) haddresses hproposed rfl).1
  have hshows' : WallClock.IsInstant bangkok pastTen pastThree := ⟨by decide, rfl⟩
  have htext' : String.ofList (Stamp.absolute pastThree Offset.utc).text =
      "2021-06-01T03:00:00.500Z" := by
    decide
  have hslot : proposedMeeting.type.property? 5 = some Calendar.start := rfl
  have hplaced := hcreates.create hslot ⟨_, rfl⟩ (by decide) (by decide) rfl (.instant hshows')
  rw [htext'] at hplaced
  exact ⟨haddresses, ⟨_, rfl, hsent⟩, hplaced⟩

end Meeting

end LocalCopy

end ObjectTracking
