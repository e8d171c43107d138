import ObjectTracking.Text.Digits
/-!
Escaped characters of XML: the five named entities and character references by number. Writing
escapes the five characters that have a name; reading accepts every reference to a character.
-/
set_option autoImplicit false

namespace ObjectTracking.Markup
open Text

/-- The name of a character that is always written as an entity. -/
def entityName? : Char → Option String
  | '<' => some "lt"
  | '>' => some "gt"
  | '&' => some "amp"
  | '\'' => some "apos"
  | '"' => some "quot"
  | _ => none

/-- The text between tags, or between the quotes of an attribute, that stands for a character. -/
def escapeChar (c : Char) : List Char :=
  match entityName? c with
  | some name => '&' :: name.toList ++ [';']
  | none => [c]

def escape (cs : List Char) : List Char := cs.flatMap escapeChar

/-- The character with a number; zero and the numbers of no character are refused. -/
def charOfNumber? (n : Nat) : Option Char :=
  if h : n.isValidChar then if n = 0 then none else some (Char.ofNatAux n h) else none

/-- The character that an entity, given without its ampersand and semicolon, stands for. -/
def entity? : List Char → Option Char
  | '#' :: 'x' :: ds => hexNumber? ds >>= charOfNumber?
  | '#' :: ds => number? ds >>= charOfNumber?
  | ['l', 't'] => some '<'
  | ['g', 't'] => some '>'
  | ['a', 'm', 'p'] => some '&'
  | ['a', 'p', 'o', 's'] => some '\''
  | ['q', 'u', 'o', 't'] => some '"'
  | _ => none

def endsEntity (c : Char) : Bool := c == ';' || c == '&'

/-- Replaces every entity by its character. An ampersand that begins none is refused. -/
def unescape? (cs : List Char) : Option (List Char) :=
  match cs with
  | [] => some []
  | c :: rest =>
    if c = '&' then
      let n := (rest.takeWhile (!endsEntity ·)).length
      if (rest.drop n).head? = some ';' then do
        let e ← entity? (rest.take n)
        (e :: ·) <$> unescape? (rest.drop (n + 1))
      else none
    else (c :: ·) <$> unescape? rest
termination_by cs.length
decreasing_by
  · simp only [List.length_cons, List.length_drop]; omega
  · simp

end ObjectTracking.Markup
