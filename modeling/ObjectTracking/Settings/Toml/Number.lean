import ObjectTracking.Decimal.Numeral
import ObjectTracking.Settings.Toml.Token
/-!
Numbers, dates and times in a settings file. No setting takes one, so they are only checked, and
what is left after them is all that reading gives. An integer must fit into 64 bits and a fraction
must not lie beyond every double; the parts of a date or time are not looked into.
-/
set_option autoImplicit false

namespace ObjectTracking.Settings.Toml
open Text

/-- The shape of an integer at the start of a bare word: the digits, where underscores may stand
between them, and the rest. -/
def integer? (signAllowed zerosAllowed : Bool) (radix : Nat) (s : List Char) :
    Option (List Char × List Char) :=
  let body := match s with
    | '-' :: rest => if signAllowed then rest else s
    | _ => s
  let isDigit (c : Char) : Bool := (hexValue? c).any (· < radix)
  let run := body.takeWhile fun c => isDigit c || c == '_'
  let rec underscoresLone : List Char → Bool
    | '_' :: '_' :: _ => false
    | _ :: cs => underscoresLone cs
    | [] => true
  -- A second underscore in a row ends the run before it, which then ends in an underscore.
  if run.isEmpty || run.head? == some '_' || run.getLast? == some '_' || !underscoresLone run then
    none
  else if !zerosAllowed && run.head? == some '0' && (run.drop 1).any isDigit then none
  else some (run, body.drop run.length)

def withoutMarks (run : List Char) : List Char := run.filter (· != '_')

def fits (negative : Bool) (radix : Nat) (run : List Char) : Bool :=
  let n := (withoutMarks run).foldl (fun n c => radix * n + (hexValue? c).getD 0) 0
  if negative then n ≤ Nat.pow 2 63 else n < Nat.pow 2 63

/-- Reads the exponent of a number, which may be cut in two by a plus sign. -/
def exponent? (suffix : List Char) (ts : List Token) : Option (Int × List Token) :=
  match suffix with
  | [] => some (0, ts)
  | c :: rest =>
    if c != 'e' && c != 'E' then none
    else if rest.isEmpty then
      match (match ts with | .plus :: ts => ts | ts => ts) with
      | .bare s :: ts =>
        match integer? false true 10 s with
        | some (run, []) => some (number (withoutMarks run), ts)
        | _ => none
      | _ => none
    else
      match integer? true true 10 rest with
      | some (run, []) =>
        let e : Int := number (withoutMarks run)
        some (if rest.head? == some '-' then -e else e, ts)
      | _ => none

def fraction? (s : List Char) (after? : Option (List Char)) (ts : List Token) :
    Option (List Token) := do
  let (whole, suffix) ← integer? true false 10 s
  let (places, suffix) ← match after? with
    | none => some ([], suffix)
    | some after => if suffix.isEmpty then integer? false true 10 after else none
  let (e, ts) ← exponent? suffix ts
  let run := withoutMarks (whole ++ places)
  let nearest := Decimal.nearestScaled false (number run) (e - (withoutMarks places).length)
  if Decimal.magnitude nearest = .infinite then none else some ts

def number? (s : List Char) (ts : List Token) : Option (List Token) :=
  let whole (radix : Nat) (cs : List Char) : Option (List Token) :=
    match integer? (radix == 10) (radix != 10) radix cs with
    | some (run, []) => if fits (cs.head? == some '-') radix run then some ts else none
    | _ => none
  match s with
  | '0' :: 'x' :: cs => whole 16 cs
  | '0' :: 'o' :: cs => whole 8 cs
  | '0' :: 'b' :: cs => whole 2 cs
  | _ =>
    if s.contains 'e' || s.contains 'E' then fraction? s none ts
    else
      match ts with
      | .period :: .bare after :: ts => fraction? s (some after) ts
      | .period :: _ => none
      | _ =>
        let word := match s with
          | '-' :: word => word
          | word => word
        if word == "inf".toList || word == "nan".toList then some ts else whole 10 s

def bare? : List Token → Option (List Token)
  | .bare _ :: ts => some ts
  | _ => none

def bareAfter? (t : Token) (ts : List Token) : Option (List Token) :=
  match expect t ts with
  | some ts => bare? ts
  | none => some ts

/-- Reads the rest of a date or time, whose first word is read; `inTime` if its first colon is too.
Its numbers are not checked. -/
def dateTime? (inTime : Bool) (ts : List Token) : Option (List Token) := do
  let ts := match ts with
    | .blank [' '] :: .bare _ :: ts => ts
    | ts => ts
  let ts? := if inTime then some ts else expect .colon ts
  match ts? with
  | none => some ts
  | some ts =>
    let ts ← bare? ts
    let ts ← expect .colon ts
    let ts ← bare? ts
    let ts ← bareAfter? .period ts
    let ts ← bareAfter? .plus ts
    bareAfter? .colon ts

/-- Whether a bare word begins a date or time rather than a number: it has a `T`, or a dash that
belongs to no sign. -/
def looksLikeDate (s : List Char) : Bool :=
  let pairs := s.zip (s.drop 1)
  s.contains 'T' || s.contains 't' ||
    ((s.drop 1).contains '-' && !pairs.contains ('e', '-') && !pairs.contains ('E', '-'))

def isNumeric (s : List Char) : Bool :=
  s == "inf".toList || s == "nan".toList || s.head?.any fun c => c.isDigit || c == '-'

end ObjectTracking.Settings.Toml
