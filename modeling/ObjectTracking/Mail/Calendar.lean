import ObjectTracking.Mail.Item
/-!
Calendar items. Start and end follow their time zone properties when these change.
-/
set_option autoImplicit false

namespace ObjectTracking.Mail.Calendar

def start : Property :=
  (Property.linkedDateTime "Start" "calendar:Start" "calendar:StartTimeZone").withFlags Flag.mutable

def finish : Property :=
  (Property.linkedDateTime "End" "calendar:End" "calendar:EndTimeZone").withFlags Flag.mutable

def isAllDayEvent : Property :=
  ((Property.scalar "IsAllDayEvent" "calendar:IsAllDayEvent" .boolean).withFlags
    Flag.mutable).withDefault (.scalar (.boolean false))

def location : Property :=
  (Property.scalar "Location" "calendar:Location" .text).withFlags Flag.mutable

/-- Set by the server from the mailbox in which the item was created. -/
def organizer : Property :=
  ((Property.composite "Organizer" "calendar:Organizer" mailbox).contained "Mailbox").withFlags
    [.reuseInstance]

def requiredAttendees : Property :=
  (((Property.collection "RequiredAttendees" "calendar:RequiredAttendees" attendee
    "Attendee").withFlags (Flag.mutable ++ [.appendable])).withFlagsSince [.itemLevel]
      .exchange2013).createdOnRead (catalog [])

def startTimeZone : Property :=
  ((Property.composite "StartTimeZone" "calendar:StartTimeZone" timeZone).withFlags
    Flag.mutable).introducedIn .exchange2010

def endTimeZone : Property :=
  ((Property.composite "EndTimeZone" "calendar:EndTimeZone" timeZone).withFlags
    Flag.mutable).introducedIn .exchange2010

def type : ObjectType where
  element := "CalendarItem"
  target := .item
  members := Item.members ++
    [⟨.summary, start⟩, ⟨.summary, finish⟩, ⟨.summary, isAllDayEvent⟩, ⟨.summary, location⟩,
      ⟨.summary, organizer⟩, ⟨.full, requiredAttendees⟩, ⟨.full, startTimeZone⟩,
      ⟨.full, endTimeZone⟩]

end ObjectTracking.Mail.Calendar
