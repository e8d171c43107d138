import ObjectTracking.Mail.Item
/-!
Contacts. Mail addresses and phone numbers are dictionaries, each key of which is a property.
-/
set_option autoImplicit false

namespace ObjectTracking.Mail.Contact

def text (element uri : String) : Property :=
  (Property.scalar element uri .text).withFlags Flag.mutable

def emailAddress (key : String) : Property :=
  ((Property.scalar "EmailAddresses" "contacts:EmailAddress" .text).indexed key).withFlags
    Flag.mutable

def phoneNumber (key : String) : Property :=
  ((Property.scalar "PhoneNumbers" "contacts:PhoneNumber" .text).indexed key).withFlags
    Flag.mutable

def birthday : Property := (Property.dateTime "Birthday" "contacts:Birthday").withFlags Flag.mutable

/-- The picture, which is large and only loaded on request. -/
def photo : Property :=
  ((Property.scalar "Photo" "contacts:Photo" .base64).withFlags [.explicitLoad]).introducedIn
    .exchange2013

def type : ObjectType where
  element := "Contact"
  target := .item
  members := Item.members ++
    [⟨.summary, text "FileAs" "contacts:FileAs"⟩,
      ⟨.summary, text "DisplayName" "contacts:DisplayName"⟩,
      ⟨.summary, text "GivenName" "contacts:GivenName"⟩,
      ⟨.summary, text "Surname" "contacts:Surname"⟩,
      ⟨.summary, text "CompanyName" "contacts:CompanyName"⟩,
      ⟨.full, emailAddress "EmailAddress1"⟩,
      ⟨.full, emailAddress "EmailAddress2"⟩,
      ⟨.full, emailAddress "EmailAddress3"⟩,
      ⟨.full, phoneNumber "HomePhone"⟩,
      ⟨.full, phoneNumber "BusinessPhone"⟩,
      ⟨.full, phoneNumber "MobilePhone"⟩,
      ⟨.full, birthday⟩,
      ⟨.none, photo⟩]

end ObjectTracking.Mail.Contact
