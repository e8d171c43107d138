/-!
Cutting an XML document into tokens: tags, texts and character data sections. Comments, processing
instructions, declarations and document types leave no token.

Each kind of markup knows how many characters lie before its end, so that cutting it off leaves a
shorter text.
-/
set_option autoImplicit false

namespace ObjectTracking.Markup

/-- The characters that XML takes for space within markup. -/
def isSpace (c : Char) : Bool := c == ' ' || c == '\t' || c == '\n' || c == '\r'

inductive Token where
  /-- A start tag: what stands between its angle brackets, without the slash of an empty element. -/
  | opening (content : List Char) (isEmpty : Bool)
  /-- An end tag: what stands between its slash and the bracket. -/
  | closing (content : List Char)
  /-- Text with its entities. -/
  | text (raw : List Char)
  /-- Character data as it stands. -/
  | verbatim (data : List Char)
  deriving DecidableEq, Repr

/-- The length of a tag, up to the first closing bracket outside quotes; `seen` characters and
perhaps an open quote come before. -/
def tagLength? (quote : Option Char) (seen : Nat) : List Char → Option Nat
  | [] => none
  | c :: cs =>
    match quote with
    | some q => tagLength? (if c == q then none else some q) (seen + 1) cs
    | none =>
      if c == '>' then some seen
      else tagLength? (if c == '\'' || c == '"' then some c else none) (seen + 1) cs

/-- The length of what comes before the first occurrence of `mark`. -/
def lengthBefore? (mark : List Char) (seen : Nat) : List Char → Option Nat
  | [] => if mark.isEmpty then some seen else none
  | c :: cs =>
    if mark.isPrefixOf (c :: cs) then some seen else lengthBefore? mark (seen + 1) cs

/-- The length of a document type, up to the bracket that balances those within it. -/
def doctypeLength? (depth : Nat) (seen : Nat) : List Char → Option Nat
  | [] => none
  | c :: cs =>
    if c == '>' then
      if depth == 0 then some seen else doctypeLength? (depth - 1) (seen + 1) cs
    else doctypeLength? (if c == '<' then depth + 1 else depth) (seen + 1) cs

/-- The name in an end tag, without the space after it. Space alone counts as the name. -/
def closingName (content : List Char) : List Char :=
  let name := (content.reverse.dropWhile isSpace).reverse
  if name.isEmpty then content else name

/-- A piece of markup after its opening bracket: its token, if it leaves one, and how many
characters it takes with its closing bracket. -/
def markup? (cs : List Char) : Option (Option Token × Nat) :=
  match cs with
  | [] => none
  | '!' :: '-' :: '-' :: body =>
    (lengthBefore? ['-', '-', '>'] 0 body).map fun n => (none, n + 6)
  | '!' :: '[' :: 'C' :: 'D' :: 'A' :: 'T' :: 'A' :: '[' :: body =>
    (lengthBefore? [']', ']', '>'] 0 body).map fun n => (some (.verbatim (body.take n)), n + 11)
  | '!' :: body =>
    if (body.take 7).map Char.toLower == "doctype".toList then
      (doctypeLength? 0 0 (body.drop 7)).bind fun n =>
        if ((body.drop 7).take n).all isSpace then none else some (none, n + 9)
    else none
  | '?' :: '>' :: _ => none
  | '?' :: body =>
    (lengthBefore? ['?', '>'] 0 body).map fun n => (none, n + 3)
  | '/' :: body =>
    (tagLength? none 0 body).map fun n => (some (.closing (closingName (body.take n))), n + 2)
  | _ =>
    (tagLength? none 0 cs).map fun n =>
      let content := cs.take n
      if content.getLast? == some '/' then (some (.opening content.dropLast true), n + 1)
      else (some (.opening content false), n + 1)

/-- Cuts a document into tokens, unless markup is broken or does not end. -/
def tokens? (cs : List Char) : Option (List Token) :=
  match cs with
  | [] => some []
  | c :: rest =>
    if c = '<' then
      match markup? rest with
      | none => none
      | some (t, n) => (t.toList ++ ·) <$> tokens? (rest.drop n)
    else
      (.text (c :: rest.takeWhile (· != '<')) :: ·) <$> tokens? (rest.dropWhile (· != '<'))
termination_by cs.length
decreasing_by
  · simp only [List.length_cons, List.length_drop]; omega
  · have := (rest.dropWhile_sublist (· != '<')).length_le
    simp only [List.length_cons]; omega

end ObjectTracking.Markup
