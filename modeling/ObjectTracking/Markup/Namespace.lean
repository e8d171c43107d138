/-!
The XML namespaces of the protocol. An element in any other namespace, or in none, has no namespace
here.
-/
set_option autoImplicit false

namespace ObjectTracking.Markup

inductive Namespace where
  /-- Items, folders and their properties. -/
  | types
  /-- Requests and responses. -/
  | messages
  /-- The envelope around them. -/
  | soap
  deriving DecidableEq, Repr

namespace Namespace

/-- Every namespace, in the order in which a document declares them. -/
def all : List Namespace := [types, messages, soap]

def uri : Namespace → String
  | types => "http://schemas.microsoft.com/exchange/services/2006/types"
  | messages => "http://schemas.microsoft.com/exchange/services/2006/messages"
  | soap => "http://schemas.xmlsoap.org/soap/envelope/"

def label : Namespace → String
  | types => "t"
  | messages => "m"
  | soap => "soap"

def ofUri? (s : String) : Option Namespace := all.find? (·.uri == s)

theorem ofUri?_uri (ns : Namespace) : ofUri? ns.uri = some ns := by cases ns <;> decide

end Namespace

end ObjectTracking.Markup
