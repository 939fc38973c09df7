/-
This file reads TOML documents. A document is a sequence of lines: values under
keys, and headers that say into which table the values after them go. Lists and
inline tables may run over several lines.
-/

import TreeScript.Toml.Scalar

namespace TreeScript.Toml

/-- Skips blanks, line ends and comments, for at most the given number of lines. -/
def skipTrivia : Nat → List Char → Option (List Char)
  | 0, text => some text
  | count + 1, text => do
    let text ← comment? (skipSpace text)
    match newline? text with
    | some rest => skipTrivia count rest
    | none => return text

/-- Skips blanks, line ends and comments. -/
def skipAllTrivia (text : List Char) : Option (List Char) :=
  skipTrivia (text.length + 1) text

mutual

/-- Reads a value of any kind, in which lists and tables go at most `levels` deep. -/
def value? : Nat → Nat → List Char → Option (Spanned × List Char)
  | 0, _, _ => none
  | count + 1, levels, text => do
    let (value, rest) ← match levels, text with
      | 0, '[' :: _ => none
      | 0, '\x7b' :: _ => none
      | levels + 1, '[' :: rest => do
        let (elements, rest) ← elements? count levels [] rest
        pure (Value.array false elements, rest)
      | levels + 1, '\x7b' :: rest => do
        let (entries, rest) ← inlineEntries? count levels [] rest
        pure (Value.table .inline entries, rest)
      | _, _ => scalar? text
    return ((spanBetween text rest, value), rest)

/-- Reads the elements of a list and its closing bracket. -/
def elements? : Nat → Nat → List Spanned → List Char → Option (List Spanned × List Char)
  | 0, _, _, _ => none
  | count + 1, levels, done, text => do
    match ← skipAllTrivia text with
    | ']' :: rest => return (done.reverse, rest)
    | text =>
      let (element, rest) ← value? count levels text
      match ← skipAllTrivia rest with
      | ',' :: rest => elements? count levels (element :: done) rest
      | ']' :: rest => return ((element :: done).reverse, rest)
      | _ => none

/-- Reads the entries of an inline table and its closing brace. Lines may break everywhere except
inside a key. -/
def inlineEntries? : Nat → Nat → Entries → List Char → Option (Entries × List Char)
  | 0, _, _, _ => none
  | count + 1, levels, entries, text => do
    match ← skipAllTrivia text with
    | '\x7d' :: rest => return (entries, rest)
    | text =>
      let (keys, rest) ← keyPath? text
      let '=' :: rest ← skipAllTrivia rest | none
      let (value, rest) ← value? count levels (← skipAllTrivia rest)
      let key ← keys.getLast?
      let path := keys.dropLast
      let entries ← changeAt true (define (!path.isEmpty) key value) path .inline entries
      match ← skipAllTrivia rest with
      | ',' :: rest => inlineEntries? count levels entries rest
      | '\x7d' :: rest => return (entries, rest)
      | _ => none

end

/-- What a document holds so far, and the header that the next values belong to. -/
structure Progress where
  entries : Entries := []
  header : List Key := []

/-- Makes a change in the table at the end of a path of headers. -/
def Progress.change (progress : Progress) (path : List Key) (change : Change) : Option Entries :=
  changeAt false change path .header progress.entries

/-- Reads a header and opens its table. -/
def header? (progress : Progress) (text : List Char) : Option (Progress × List Char) := do
  let (isElement, inner) : Bool × List Char ← match text with
    | '[' :: '[' :: rest => some (true, rest)
    | '[' :: rest => some (false, rest)
    | _ => none
  let (keys, rest) ← keyPath? (skipSpace inner)
  let rest ← match isElement, skipSpace rest with
    | true, ']' :: ']' :: rest => some rest
    | false, ']' :: rest => some rest
    | _, _ => none
  let key ← keys.getLast?
  let span := spanBetween text rest
  let entries ← progress.change keys.dropLast
    (if isElement then openElement key span else openTable key span)
  return (⟨entries, keys⟩, rest)

/-- Reads a value under a key into the table of the last header. -/
def definition? (progress : Progress) (text : List Char) : Option (Progress × List Char) := do
  let (keys, rest) ← keyPath? text
  let '=' :: rest := skipSpace rest | none
  let (value, rest) ← value? (2 * rest.length + 2) depthLimit (skipSpace rest)
  let key ← keys.getLast?
  let path := keys.dropLast
  let entries ← progress.change progress.header
    (changeAt true (define (!path.isEmpty) key value) path)
  return ({ progress with entries }, rest)

/-- Reads the lines of a document, for at most the given number of them. -/
def lines? : Nat → Progress → List Char → Option Entries
  | 0, _, _ => none
  | count + 1, progress, text => do
    match ← skipAllTrivia text with
    | [] => return progress.entries
    | c :: text =>
      let (progress, rest) ←
        if c = '[' then header? progress (c :: text) else definition? progress (c :: text)
      let rest ← comment? (skipSpace rest)
      if rest.isEmpty then return progress.entries
      else lines? count progress (← newline? rest)

/-- The top-level table of a document, with its keys in increasing order. -/
def parse? (source : String) : Option Entries := do
  let text := source.toList
  -- A byte order mark in front of a document is no part of it.
  let text := if text.head? == some '\ufeff' then text.drop 1 else text
  let entries ← lines? (text.length + 1) {} text
  return entries.mergeSort fun (a, _) (b, _) => !decide (b.name < a.name)

end TreeScript.Toml
