import ObjectTracking.Text.Digits
/-!
The tokens of a settings file. The quotes and escapes of a string are resolved here; what a bare
word means depends on where it stands.
-/
set_option autoImplicit false

namespace ObjectTracking.Settings.Toml
open Text

inductive Token where
  | blank (text : List Char)
  | newline
  | comment
  | equals
  | period
  | comma
  | colon
  | plus
  | openBrace
  | closeBrace
  | openBracket
  | closeBracket
  /-- A run of letters, digits, dashes and underscores: a bare key, a word or a number. -/
  | bare (text : List Char)
  | quotedText (text : List Char) (multiline : Bool)
  deriving DecidableEq

def isBare (c : Char) : Bool := c.isAlphanum || c == '-' || c == '_'

/-- The characters that may stand unescaped in a string or a comment. -/
def isPlain (c : Char) : Bool := c == '\t' || 0x20 ≤ c.toNat

/-- Reads the escape after a backslash: the character, or none for an escaped line end, and the
rest. -/
def escape? (multiline : Bool) : List Char → Option (List Char × List Char)
  | '"' :: cs => some (['"'], cs)
  | '\\' :: cs => some (['\\'], cs)
  | 'b' :: cs => some (['\x08'], cs)
  | 'f' :: cs => some (['\x0c'], cs)
  | 'n' :: cs => some (['\n'], cs)
  | 'r' :: cs => some (['\r'], cs)
  | 't' :: cs => some (['\t'], cs)
  | 'u' :: cs => numbered 4 cs
  | 'U' :: cs => numbered 8 cs
  | cs =>
    let (space, rest) := cs.span fun c => c == ' ' || c == '\t'
    match multiline, rest with
    | true, '\n' :: rest => some ([], rest.dropWhile fun c => c == ' ' || c == '\t' || c == '\n')
    | true, [] => if space.isEmpty then none else some ([], [])
    | _, _ => none
where
  numbered (width : Nat) (cs : List Char) : Option (List Char × List Char) :=
    if (cs.take width).length == width then
      (hexNumber? (cs.take width)).bind fun n =>
        if h : n.isValidChar then some ([Char.ofNatAux n h], cs.drop width) else none
    else none

/-- Reads a string after its opening quotes; `delim` is its quote. At most two quotes may stand
before the three that close a string of several lines. -/
def stringBody (delim : Char) (multiline : Bool) :
    Nat → List Char → Option (List Char × List Char)
  | 0, _ => none
  | fuel + 1, cs =>
    match cs with
    | [] => none
    | c :: rest =>
      if c == delim then
        if !multiline then some ([], rest)
        else
          match rest with
          | d :: e :: rest' =>
            if d == delim && e == delim then
              let extra := (rest'.takeWhile (· == delim)).take 2
              some (extra, rest'.drop extra.length)
            else (stringBody delim multiline fuel rest).map fun (s, r) => (c :: s, r)
          | _ => (stringBody delim multiline fuel rest).map fun (s, r) => (c :: s, r)
      else if c == '\n' then
        if multiline then (stringBody delim multiline fuel rest).map fun (s, r) => (c :: s, r)
        else none
      else if c == '\\' && delim == '"' then do
        let (e, rest) ← escape? multiline rest
        let (s, r) ← stringBody delim multiline fuel rest
        some (e ++ s, r)
      else if isPlain c && c != '\x7f' then
        (stringBody delim multiline fuel rest).map fun (s, r) => (c :: s, r)
      else none

def string? (delim : Char) (cs : List Char) : Option (Token × List Char) :=
  match cs with
  | d :: e :: rest =>
    if d == delim && e == delim then
      let body := match rest with
        | '\n' :: body => body
        | body => body
      (stringBody delim true (body.length + 1) body).map fun (s, r) => (.quotedText s true, r)
    else if d == delim then some (.quotedText [] false, e :: rest)
    else (stringBody delim false (cs.length + 1) cs).map fun (s, r) => (.quotedText s false, r)
  | [d] => if d == delim then some (.quotedText [] false, []) else none
  | [] => none

def token? : List Char → Option (Token × List Char)
  | [] => none
  | c :: cs =>
    if c == '\n' then some (.newline, cs)
    else if c == ' ' || c == '\t' then
      let (s, rest) := cs.span fun c => c == ' ' || c == '\t'
      some (.blank (c :: s), rest)
    else if c == '#' then some (.comment, cs.dropWhile isPlain)
    else if c == '=' then some (.equals, cs)
    else if c == '.' then some (.period, cs)
    else if c == ',' then some (.comma, cs)
    else if c == ':' then some (.colon, cs)
    else if c == '+' then some (.plus, cs)
    else if c == '\x7b' then some (.openBrace, cs)
    else if c == '\x7d' then some (.closeBrace, cs)
    else if c == '[' then some (.openBracket, cs)
    else if c == ']' then some (.closeBracket, cs)
    else if c == '\'' || c == '"' then string? c cs
    else if isBare c then
      let (s, rest) := cs.span isBare
      some (.bare (c :: s), rest)
    else none

/-- Cuts a text into tokens. Every token takes a character, so its length is enough steps. -/
def tokens? : Nat → List Char → Option (List Token)
  | _, [] => some []
  | 0, _ => none
  | fuel + 1, cs => do
    let (t, rest) ← token? cs
    (t :: ·) <$> tokens? fuel rest

def foldLines : List Char → List Char
  | '\r' :: '\n' :: cs => '\n' :: foldLines cs
  | c :: cs => c :: foldLines cs
  | [] => []

def skipBlank : List Token → List Token
  | .blank _ :: ts => skipBlank ts
  | ts => ts

def expect (t : Token) : List Token → Option (List Token)
  | u :: ts => if t = u then some ts else none
  | [] => none

def endOfLine? (ts : List Token) : Option (List Token) :=
  match (match ts with | .comment :: ts => ts | ts => ts) with
  | [] => some []
  | .newline :: ts => some ts
  | _ => none

/-- Drops blanks, line ends and comments, as stand between the items of an array. -/
def skipLayout : List Token → Option (List Token)
  | .blank _ :: ts => skipLayout ts
  | .newline :: ts => skipLayout ts
  | .comment :: .newline :: ts => skipLayout ts
  | [.comment] => some []
  | .comment :: _ => none
  | ts => some ts

end ObjectTracking.Settings.Toml
