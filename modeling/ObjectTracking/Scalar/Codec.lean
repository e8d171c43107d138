import ObjectTracking.Base64
import ObjectTracking.Decimal.Numeral
import ObjectTracking.Fault
import ObjectTracking.Report
import ObjectTracking.Scalar.Basic
import ObjectTracking.Time.Bias
/-!
How scalar values are written as text. A codec reads text as a value or as no value, writes a value
as text, and says which values it can write.
-/
set_option autoImplicit false

namespace ObjectTracking
open Text (trim)

/-- A codec for scalars, supplied by the user of the library. -/
structure CustomCodec where
  /-- The name of what it reads, for messages. -/
  name : String
  /-- Reads a text, perhaps as no value. -/
  parse : String → Option (Option Scalar)
  format : Scalar → Option String

inductive Codec where
  | text
  /-- The words `true` and `false`; `1` and `0` are read too. -/
  | boolean
  | integer
  | double
  | enumeration (names : List String)
  | base64
  /-- The offset of a zone, as a bias. -/
  | bias
  | custom (c : CustomCodec)

namespace Codec

def integer64? (cs : List Char) : Option Int64 :=
  (Text.integer? cs).bind fun i =>
    if Int64.minValue.toInt ≤ i ∧ i ≤ Int64.maxValue.toInt then some (Int64.ofInt i) else none

/-- Reads a text in which something other than blanks stands. -/
def parseFilled (codec : Codec) (cs : List Char) (strict : Bool) :
    Except String (Option Scalar × Bool) :=
  let found {α : Type} (make : α → Scalar) (reason : String) (v : Option α) :
      Except String (Option Scalar × Bool) :=
    match v with
    | some v => .ok (some (make v), true)
    | none => .error reason
  match codec with
  | .boolean =>
    found .boolean "not a boolean" <|
      if cs == "true".toList || cs == ['1'] then some true
      else if cs == "false".toList || cs == ['0'] then some false
      else none
  | .integer => found .integer "not an integer" (integer64? cs)
  | .double => found .double "not a number" (Decimal.read? cs)
  | .enumeration names =>
    match names.find? (· == String.ofList cs) with
    | some n => .ok (some (.name n), true)
    | none => if strict then .error "unknown enumeration member" else .ok (none, false)
  | .bias => found .offset "not a time zone bias" (Time.Bias.parse? cs)
  | _ => .ok (none, true)

/-- Reads a text. Empty text is the empty text or the empty data for the codecs that have such a
thing, and no value for the others. A lenient reader takes a name that the enumeration does not know
for no value, with a remark. -/
def parse (codec : Codec) (property text : String) (strict : Bool) :
    Except Fault (Option Scalar) × List Report :=
  let cs := trim text.toList
  let bad (reason : String) : Except Fault (Option Scalar) :=
    .error (.malformed property text reason)
  match codec with
  | .text => (.ok (some (.text text)), [])
  | .base64 =>
    match Base64.decode (Text.toUtf8 cs) with
    | .ok bytes => (.ok (some (.binary bytes)), [])
    | .error refusal => (bad refusal.message, [])
  | .custom c =>
    match c.parse text with
    | some v => (.ok v, [])
    | none => (bad ("not a valid " ++ c.name), [])
  | codec =>
    if cs.isEmpty then (.ok none, [])
    else
      match codec.parseFilled cs strict with
      | .ok (v, true) => (.ok v, [])
      | .ok (v, false) => (.ok v, [.unknownName (String.ofList cs) property])
      | .error reason => (bad reason, [])

def text? (codec : Codec) (v : Scalar) : Option String :=
  match codec, v with
  | .text, .text s => some s
  | .boolean, .boolean b => some (if b then "true" else "false")
  | .integer, .integer i => some (String.ofList (Text.signed i.toInt))
  | .double, .double d => some (Decimal.render .wire d)
  | .double, .integer i => some (String.ofList (Text.signed i.toInt))
  | .enumeration names, v => v.text?.filter names.contains
  | .base64, .binary bytes => some (String.ofList (Base64.encode bytes))
  | .bias, .offset o => some (String.ofList (Time.Bias.format o))
  | .custom c, v => c.format v
  | _, _ => none

def format (codec : Codec) (property : String) (v : Option Scalar) :
    Except Fault (Option String) :=
  match v with
  | none => .ok none
  | some v =>
    match codec.text? v with
    | some s => .ok (some s)
    | none => .error (.typeMismatch property)

/-- The canonical form of a value the codec can write: the name for a text that an enumeration
knows, and the value itself for any other. -/
def normalise (codec : Codec) (property : String) (v : Scalar) : Except Fault Scalar :=
  match codec with
  | .enumeration names =>
    match v.text? with
    | some s => if names.contains s then .ok (.name s) else .error (.typeMismatch property)
    | none => .error (.typeMismatch property)
  | codec =>
    match codec.text? v with
    | some _ => .ok v
    | none => .error (.typeMismatch property)

def debug : Codec → String
  | .text => "Text"
  | .boolean => "Boolean"
  | .integer => "Integer"
  | .double => "Double"
  | .enumeration names =>
    "Enumeration([" ++ String.intercalate ", " (names.map Text.quoted) ++ "])"
  | .base64 => "Base64"
  | .bias => "Bias"
  | .custom c => "Custom(CustomCodec(" ++ c.name ++ "))"

end Codec

end ObjectTracking
