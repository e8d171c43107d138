import ObjectTracking.Settings.Toml.Number
/-!
The values of a settings file and the keys they stand under. Strings, truth values and tables keep
their contents. The descent into arrays and inline tables is bounded by the number of tokens, which
every nested value uses up.
-/
set_option autoImplicit false

namespace ObjectTracking.Settings.Toml

inductive Value where
  | text (s : String)
  | boolean (b : Bool)
  | number
  | dateTime
  | array (items : List Value)
  | inlineTable (entries : List (String × Value))
  /-- A table that exists because of a key with dots. -/
  | dottedTable (entries : List (String × Value))

def simpleKey? : List Token → Option (String × List Token)
  | .bare s :: ts => some (String.ofList s, ts)
  | .quotedText s false :: ts => some (String.ofList s, ts)
  | _ => none

/-- Reads the parts of a key after the first; the number bounds them. -/
def moreKeys? : Nat → List Token → Option (List String × List Token)
  | 0, _ => none
  | fuel + 1, ts =>
    match skipBlank ts with
    | .period :: ts => do
      let (k, ts) ← simpleKey? (skipBlank ts)
      let (ks, ts) ← moreKeys? fuel ts
      some (k :: ks, ts)
    | ts => some ([], ts)

def key? (ts : List Token) : Option (List String × List Token) := do
  let (k, ts) ← simpleKey? ts
  let (ks, ts) ← moreKeys? (ts.length + 1) ts
  some (k :: ks, ts)

/-- Adds an entry under a key with dots. A part that is already there must be a table of dots. -/
def addEntry (value : Value) : List String → List (String × Value) → Option (List (String × Value))
  | [], _ => none
  | [k], entries => some (entries ++ [(k, value)])
  | k :: ks, entries =>
    let (before, found) := entries.span (·.1 != k)
    match found with
    | (_, .dottedTable inner) :: after =>
      (addEntry value ks inner).map fun inner => before ++ (k, .dottedTable inner) :: after
    | _ :: _ => none
    | [] => (addEntry value ks []).map fun inner => entries ++ [(k, .dottedTable inner)]

def bareValue? (s : List Char) (ts : List Token) : Option (Value × List Token) :=
  if s == "true".toList then some (.boolean true, ts)
  else if s == "false".toList then some (.boolean false, ts)
  else if !isNumeric s then none
  else if looksLikeDate s then (dateTime? false ts).map (.dateTime, ·)
  else
    match ts with
    | .colon :: ts => (dateTime? true ts).map (.dateTime, ·)
    | ts => (number? s ts).map (.number, ·)

mutual

def value? : Nat → List Token → Option (Value × List Token)
  | 0, _ => none
  | fuel + 1, ts =>
    match ts with
    | .quotedText s _ :: ts => some (.text (String.ofList s), ts)
    | .bare s :: ts => bareValue? s ts
    | .plus :: .bare s :: ts => (number? s ts).map (.number, ·)
    | .openBrace :: ts =>
      match skipBlank ts with
      | .closeBrace :: ts => some (.inlineTable [], ts)
      | ts => (entries? fuel [] ts).map fun (es, ts) => (.inlineTable es, ts)
    | .openBracket :: ts => (items? fuel ts).map fun (vs, ts) => (.array vs, ts)
    | _ => none

/-- Reads the items of an array up to its closing bracket; a comma may follow the last. -/
def items? : Nat → List Token → Option (List Value × List Token)
  | 0, _ => none
  | fuel + 1, ts => do
    match ← skipLayout ts with
    | .closeBracket :: ts => some ([], ts)
    | ts =>
      let (v, ts) ← value? fuel ts
      match ← skipLayout ts with
      | .comma :: ts =>
        let (vs, ts) ← items? fuel ts
        some (v :: vs, ts)
      | .closeBracket :: ts => some ([v], ts)
      | _ => none

/-- Reads the entries of an inline table up to its closing brace, after those already read. -/
def entries? : Nat → List (String × Value) → List Token →
    Option (List (String × Value) × List Token)
  | 0, _, _ => none
  | fuel + 1, sofar, ts => do
    let (key, ts) ← key? ts
    let ts ← expect .equals (skipBlank ts)
    let (v, ts) ← value? fuel (skipBlank ts)
    let sofar ← addEntry v key sofar
    match skipBlank ts with
    | .closeBrace :: ts => some (sofar, ts)
    | .comma :: ts => entries? fuel sofar (skipBlank ts)
    | _ => none

end

end ObjectTracking.Settings.Toml
