import ObjectTracking.Mail.TimeZone
/-!
The layouts of the nested values in folders, contacts and calendar items, and the catalog that knows
them.
-/
set_option autoImplicit false

namespace ObjectTracking.Mail

def sensitivityNames : List String := ["Normal", "Personal", "Private", "Confidential"]

def bodyTypeNames : List String := ["HTML", "Text"]

def routingTypeNames : List String := ["SMTP", "EX"]

def distinguishedUserNames : List String := ["Default", "Anonymous"]

def permissionLevelNames : List String :=
  ["None", "Owner", "PublishingEditor", "Editor", "PublishingAuthor", "Author", "NoneditingAuthor",
    "Reviewer", "Contributor", "Custom"]

def readAccessNames : List String := ["None", "FullDetails"]

def responseTypeNames : List String :=
  ["Unknown", "Organizer", "Tentative", "Accept", "Decline", "NoResponseReceived"]

def timeZone : LayoutId := ⟨0⟩
def itemId : LayoutId := ⟨1⟩
def body : LayoutId := ⟨2⟩
def mailbox : LayoutId := ⟨3⟩
def category : LayoutId := ⟨4⟩
def attendee : LayoutId := ⟨5⟩
def folderId : LayoutId := ⟨6⟩
def effectiveRights : LayoutId := ⟨7⟩
def userId : LayoutId := ⟨8⟩
def permission : LayoutId := ⟨9⟩
def retentionTag : LayoutId := ⟨10⟩

def identityLayout (name : String) : Layout :=
  ((Layout.named name).withAttribute "Id" .text).withAttribute "ChangeKey" .text

def bodyLayout : Layout :=
  ((Layout.named "Body").withAttribute "BodyType" (.enumeration bodyTypeNames)).withText "Value"
    .text

def mailboxLayout : Layout :=
  (((Layout.named "Mailbox").withElement "Name" .text).withElement "EmailAddress" .text).withElement
    "RoutingType" (.enumeration routingTypeNames)

def categoryLayout : Layout := (Layout.named "String").withText "Value" .text

def attendeeLayout : Layout :=
  ((Layout.named "Attendee").withNested "Mailbox" mailbox).withElement "ResponseType"
    (.enumeration responseTypeNames)

def effectiveRightsLayout : Layout :=
  ["CreateAssociated", "CreateContents", "CreateHierarchy", "Delete", "Modify", "Read"].foldl
    (fun l name => l.withElement name .boolean) (Layout.named "EffectiveRights")

def userIdLayout : Layout :=
  (((Layout.named "UserId").withElement "PrimarySmtpAddress" .text).withElement "DistinguishedUser"
    (.enumeration distinguishedUserNames)).withElement "DisplayName" .text

def permissionLayout : Layout :=
  let rights := ["CanCreateItems", "CanCreateSubFolders", "IsFolderOwner", "IsFolderVisible",
    "IsFolderContact"].foldl (fun l name => l.withElement name .boolean)
      ((Layout.named "Permission").withNested "UserId" userId)
  (rights.withElement "ReadItems" (.enumeration readAccessNames)).withElement "PermissionLevel"
    (.enumeration permissionLevelNames)

def retentionTagLayout : Layout :=
  ((Layout.named "RetentionTag").withAttribute "IsExplicit" .boolean).withText "Value" .text

/-- The layouts in the order of their identities. -/
def layouts : List Layout :=
  [timeZoneLayout, identityLayout "ItemId", bodyLayout, mailboxLayout, categoryLayout,
    attendeeLayout, identityLayout "FolderId", effectiveRightsLayout, userIdLayout,
    permissionLayout, retentionTagLayout]

/-- The catalog of these layouts and of more that the user defines, whose identities come after. An
identity beyond them has no fields. -/
def catalog (more : List Layout) : Catalog :=
  let all := (layouts ++ more).toArray
  ⟨fun l => all.getD l.index { name := "" }⟩

def timeZoneOf (cat : Catalog) (id : String) (offset : Time.Offset) : Except Fault Composite :=
  (Composite.new cat timeZone).withAll cat
    [("Id", .scalar (.text id)), ("BaseOffset", .scalar (.offset offset))]

end ObjectTracking.Mail
