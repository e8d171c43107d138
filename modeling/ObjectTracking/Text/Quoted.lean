import ObjectTracking.Text.Hidden
/-!
Quoted texts, as messages and debugging output show them: between double quotes, on one line, with
every character visible.
-/
set_option autoImplicit false

namespace ObjectTracking.Text

def shortEscape? : Char → Option Char
  | '\x00' => some '0'
  | '\t' => some 't'
  | '\r' => some 'r'
  | '\n' => some 'n'
  | '"' => some '"'
  | '\\' => some '\\'
  | _ => none

/-- Spells a character by its number, in lowercase hexadecimal between braces. -/
def numbered (c : Char) : List Char :=
  ['\\', 'u', '\x7b'] ++ Nat.toDigits 16 c.toNat ++ ['\x7d']

/-- One character of a quoted text. ASCII needs no table: only its controls are hidden. -/
def quotedChar (c : Char) : List Char :=
  match shortEscape? c with
  | some e => ['\\', e]
  | none =>
    if c.toNat < 0x7F then
      if c.toNat < 0x20 then numbered c else [c]
    else if isExtending c || isHidden c then numbered c
    else [c]

def quoted (s : String) : String :=
  String.ofList ('"' :: s.toList.flatMap quotedChar ++ ['"'])

end ObjectTracking.Text
