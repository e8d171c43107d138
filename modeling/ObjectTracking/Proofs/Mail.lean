import ObjectTracking.Mail.Calendar
import ObjectTracking.Mail.Contact
import ObjectTracking.Mail.Folder
import ObjectTracking.Markup.Forest
import ObjectTracking.Session
/-!
The object types for mail: the collections they default to are empty. A meeting and the people
invited to it serve as the example for what is proved of local copies.
-/
set_option autoImplicit false

namespace ObjectTracking.Mail
open Markup

def types : List ObjectType := [Folder.type, Contact.type, Calendar.type]

theorem default_empty {type : ObjectType} (ht : type ∈ types) {q : Property}
    (hq : q ∈ type.properties) {c : Collection} (hc : q.default? = some (.collection c)) :
    c.entries = [] ∧ c.removed = [] := by
  have hall : (types.all fun t => t.properties.all fun q =>
      (q.default?.bind Value.collection?).all fun c =>
        c.entries.isEmpty && c.removed.isEmpty) = true := by decide
  have h := List.all_eq_true.mp (List.all_eq_true.mp hall type ht) q hq
  rw [hc] at h
  simpa [Value.collection?] using h

def invitee (response : String) : Composite :=
  .mk attendee none [.unset, .scalar (.name response)]

def inviteeElement (response : String) (rest : Forest) : Forest :=
  .element ⟨some .types, "Attendee", []⟩
    (.element ⟨some .types, "ResponseType", []⟩ (.text response .closed) .closed) rest

/-- The content of a meeting's element, with the people that are invited. -/
def meeting (responses : List String) : Forest :=
  .element ⟨some .types, "RequiredAttendees", []⟩ (responses.foldr inviteeElement .closed) .closed

def session : Session := ⟨.newest, .utc, true⟩

end ObjectTracking.Mail
