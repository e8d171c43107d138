import ObjectTracking.Proofs.Mail
import ObjectTracking.Proofs.Property.Content
import ObjectTracking.UpdateOp
/-!
Items of a collection that are written one by one, beside the whole collection. The wrappers are the
same by induction on the layers of the shape; the entry of a dictionary is only written around the
whole.
-/
set_option autoImplicit false

namespace ObjectTracking
open Markup

namespace Markup.Encoding
variable (e e' : Encoding) (c : Call) (ns : Namespace) (name : String)

@[simp] theorem calls_call_append : (call c ++ e).calls = c :: e.calls := rfl

@[simp] theorem fault?_call_append : (call c ++ e).fault? = e.fault? := rfl

theorem calls_element_eq :
    (element ns name e).calls =
      .opening ns name :: (e.calls ++ if e.fault?.isNone then [.closing] else []) := by
  obtain ⟨es, fault⟩ := e
  cases fault with
  | none => exact congrArg (Call.opening ns name :: ·) (List.filterMap_append ..)
  | some fault => exact congrArg (Call.opening ns name :: ·) (List.append_nil _).symm

@[simp] theorem fault?_element : (element ns name e).fault? = e.fault? := by
  obtain ⟨es, fault⟩ := e
  cases fault <;> rfl

/-- Every element around a content adds to its calls. -/
theorem length_calls_element_lt (h : e.fault? = e'.fault?) (hlt : e.calls.length < e'.calls.length) :
    (element ns name e).calls.length < (element ns name e').calls.length := by
  rw [calls_element_eq, calls_element_eq, h]
  simp only [List.length_cons, List.length_append]
  omega

end Markup.Encoding

variable {cat : Catalog} {ctx : WriteContext} {type : ObjectType} {q : Property} {c : Collection}
  {v : Value}

namespace Shape

/-- Within the outermost element the items are written as the whole collection is. -/
theorem encodeItems_eq_encode (cat : Catalog) (ctx : WriteContext) {shape : Shape}
    (property : String) (h : shape.innermost = .collection c.layout c.element) :
    shape.encodeItems cat property c.items = shape.encode cat ctx property (.collection c) := by
  induction shape with
  | scalar codec => cases h
  | dateTime zoneUri => cases h
  | composite l => cases h
  | collection l element =>
    obtain ⟨-, rfl⟩ := Shape.collection.inj h
    rfl
  | indexed key inner ih => exact ih h
  | contained wrapper inner ih =>
    have hinner := ih h
    simp [encodeItems, encode, Value.isNull, hinner]

end Shape

namespace Property

theorem innermost_of_normalise (h : q.normalise (.collection c) = .ok v) :
    q.shape.innermost = .collection c.layout c.element := by
  have htakes := normalise_takes rfl h
  generalize q.shape.innermost = shape at htakes
  cases htakes
  rfl

/-- A collection is written item by item as it is as a whole: the element of the property, which the
property reads, and what an operation on one item puts into an object. -/
structure WritesItemwise (cat : Catalog) (ctx : WriteContext) (q : Property) (c : Collection) :
    Prop where
  element : q.encodeItems cat c.items = q.encode cat ctx (.collection c)
  append : ∀ (type : ObjectType) (item : Composite), c.items = [item] →
    (UpdateOp.append q item).encodeOperand cat type ctx =
      (UpdateOp.set q (.collection c)).encodeOperand cat type ctx
  setItem : ∀ (type : ObjectType) (item : Composite) (position : Nat), c.items = [item] →
    (UpdateOp.setItem q position item).encodeOperand cat type ctx =
      (UpdateOp.set q (.collection c)).encodeOperand cat type ctx
  read : cat.WellFormed → q.WellFormed cat → c.Fits cat →
    (Value.collection c).Writable cat ctx.session → ∃ attributes content,
      q.Conveyed cat ctx.session (.collection c) (q.encodeItems cat c.items) q.element attributes
        content

theorem encodeItems_eq_encode (cat : Catalog) (ctx : WriteContext)
    (h : q.normalise (.collection c) = .ok v) (hkey : q.key? = none) :
    q.encodeItems cat c.items = q.encode cat ctx (.collection c) := by
  have hcontent := Shape.encodeItems_eq_encode cat ctx q.name (innermost_of_normalise h)
  simp [encodeItems, encode, Value.isNull, hkey, hcontent]

theorem writesItemwise (cat : Catalog) (ctx : WriteContext)
    (h : q.normalise (.collection c) = .ok v) (hkey : q.key? = none) :
    q.WritesItemwise cat ctx c := by
  have helement := encodeItems_eq_encode cat ctx h hkey
  have hoperand : ∀ (type : ObjectType) (item : Composite), c.items = [item] →
      Encoding.element .types type.element (q.encodeItems cat [item]) =
        .element .types type.element (q.encode cat ctx (.collection c)) := by
    intro type item hitem
    rw [← helement, hitem]
  refine ⟨helement, hoperand, fun type item _ => hoperand type item, ?_⟩
  intro hcat hq hfits hwritable
  have hholds : q.shape.Holds cat (.collection c) :=
    Shape.holds_collection_iff.mpr ⟨innermost_of_normalise h, hfits⟩
  rw [encodeItems_eq_encode cat ⟨ctx.session, false, none⟩ h hkey]
  exact conveyed_element hcat hq hkey hholds hwritable

/-- The entry of a dictionary is missing around items. -/
theorem length_calls_encodeItems_lt (cat : Catalog) (ctx : WriteContext)
    (h : q.normalise (.collection c) = .ok v) {key : String} (hkey : q.key? = some key) :
    (q.encodeItems cat c.items).calls.length <
      (q.encode cat ctx (.collection c)).calls.length := by
  have hcontent := Shape.encodeItems_eq_encode cat ctx q.name (innermost_of_normalise h)
  simp only [encodeItems, encode, encodeEntry, hkey, hcontent, Value.isNull, Option.isSome_some,
    Bool.false_eq_true, if_false, if_true]
  apply Encoding.length_calls_element_lt
  · simp
  · rw [Encoding.calls_element_eq]
    simp only [Encoding.calls_call_append, List.length_cons, List.length_append]
    omega

/-- A collection is written item by item as it is as a whole exactly if its property is not an entry
of a dictionary, and otherwise not even the calls are the same. -/
theorem writesItemwise_iff (cat : Catalog) (ctx : WriteContext)
    (h : q.normalise (.collection c) = .ok v) :
    (q.WritesItemwise cat ctx c ↔ q.key? = none) ∧
      ((q.encodeItems cat c.items).calls = (q.encode cat ctx (.collection c)).calls →
        q.WritesItemwise cat ctx c) := by
  have hcalls : (q.encodeItems cat c.items).calls = (q.encode cat ctx (.collection c)).calls →
      q.key? = none := by
    intro hcalls
    cases hkey : q.key? with
    | none => rfl
    | some key =>
      have hlt := length_calls_encodeItems_lt cat ctx h hkey
      rw [hcalls] at hlt
      exact absurd hlt (Nat.lt_irrefl _)
  refine ⟨⟨?_, writesItemwise cat ctx h⟩, fun heq => writesItemwise cat ctx h (hcalls heq)⟩
  intro hwrites
  exact hcalls (congrArg Encoding.calls hwrites.element)

/-- Those who take the shift of a day, as an entry among other days. -/
def dayShift : Property := (collection "Shifts" "roster:Shift" Mail.attendee "Attendee").indexed "Day"

def accepted : Collection :=
  { layout := Mail.attendee, element := "Attendee",
    entries := [⟨none, false, Mail.invitee "Accept"⟩] }

/-- A wrapper around the entry takes the key away. -/
theorem wrappedShift_writesItemwise :
    (dayShift.contained "List").normalise (.collection accepted) = .ok (.collection accepted) ∧
      (dayShift.contained "List").WritesItemwise (Mail.catalog []) ⟨Mail.session, true, none⟩
        accepted := by
  have hnormal : (dayShift.contained "List").normalise (.collection accepted) =
      .ok (.collection accepted) := rfl
  obtain ⟨hiff, -⟩ := writesItemwise_iff (Mail.catalog []) ⟨Mail.session, true, none⟩ hnormal
  exact ⟨hnormal, hiff.mpr rfl⟩

theorem dayShift_writes_no_entry :
    dayShift.normalise (.collection accepted) = .ok (.collection accepted) ∧
      (dayShift.encodeItems (Mail.catalog []) accepted.items).calls =
        [.opening .types "Shifts", .opening .types "Attendee", .opening .types "ResponseType",
          .text "Accept", .closing, .closing, .closing] ∧
      (dayShift.encode (Mail.catalog []) ⟨Mail.session, true, none⟩ (.collection accepted)).calls =
        [.opening .types "Shifts", .opening .types "Entry", .attr "Key" "Day",
          .opening .types "Attendee", .opening .types "ResponseType", .text "Accept", .closing,
          .closing, .closing, .closing] ∧
      ¬ dayShift.WritesItemwise (Mail.catalog []) ⟨Mail.session, true, none⟩ accepted := by
  have hitems : (dayShift.encodeItems (Mail.catalog []) accepted.items).calls =
      [.opening .types "Shifts", .opening .types "Attendee", .opening .types "ResponseType",
        .text "Accept", .closing, .closing, .closing] := rfl
  refine ⟨rfl, hitems, rfl, ?_⟩
  intro hwrites
  rw [hwrites.element] at hitems
  exact absurd (congrArg List.length hitems) (by decide)

end Property

end ObjectTracking
