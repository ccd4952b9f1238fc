import FlatScope.Json.Numeral

/-!
# Reading JSON text

`Json.parse` reads one value with nothing but blanks around it.  What number tokens stand for is said
by a given reader.  A text that cannot be read is either truncated, when it ends where more was
required, or malformed, at the first character that cannot stand where it stands.  Nesting is not
limited, and of several fields with one key the last one counts.
-/

namespace FlatScope.Json

open FlatScope.Text

/-- Why a text is no JSON value. -/
inductive Defect where
  /-- The text ends too early. -/
  | truncated
  /-- A character cannot stand where it stands. -/
  | malformed
deriving DecidableEq

def isSpace (c : Char) : Bool := c = ' ' || c = '\t' || c = '\n' || c = '\r'

/-- The text from its first character that is no blank. -/
def skipSpace (cs : List Char) : List Char := cs.dropWhile isSpace

/-! ### Numbers -/

def readDigits (cs : List Char) : Except Defect (List Char × List Char) :=
  match cs.span isDigit with
  | ([], []) => .error .truncated
  | ([], _ :: _) => .error .malformed
  | (found, rest) => .ok (found, rest)

/-- Reads the digits before the point, where a leading zero stands alone. -/
def readWhole (cs : List Char) : Except Defect (List Char × List Char) := do
  let (found, rest) ← readDigits cs
  match found with
  | '0' :: _ :: _ => .error .malformed
  | _ => .ok (found, rest)

/-- Reads a point with the digits after it, if there is a point. -/
def readFraction : List Char → Except Defect (List Char × List Char)
  | '.' :: rest => readDigits rest
  | cs => .ok ([], cs)

def readExponentDigits : List Char → Except Defect (Int × List Char)
  | '+' :: rest => do
    let (found, rest) ← readDigits rest
    .ok (digitsValue found, rest)
  | '-' :: rest => do
    let (found, rest) ← readDigits rest
    .ok (-(digitsValue found : Int), rest)
  | cs => do
    let (found, rest) ← readDigits cs
    .ok (digitsValue found, rest)

def readExponent (cs : List Char) : Except Defect (Option Int × List Char) :=
  match cs with
  | c :: rest =>
    if c = 'e' ∨ c = 'E' then do
      let (exponent, rest) ← readExponentDigits rest
      .ok (some exponent, rest)
    else .ok (none, cs)
  | [] => .ok (none, [])

/-- Reads a number after its sign.  A number that is refused is malformed. -/
def readNumber (numbers : NumberReader) (negative : Bool) (cs : List Char) :
    Except Defect (Json × List Char) := do
  let (whole, rest) ← readWhole cs
  let (fraction, rest) ← readFraction rest
  let (exponent, rest) ← readExponent rest
  match numbers ⟨negative, whole, fraction, exponent⟩ with
  | some value => .ok (.number value, rest)
  | none => .error .malformed

/-! ### Strings -/

def escape? : Char → Option Char
  | '"' => some '"'
  | '\\' => some '\\'
  | '/' => some '/'
  | 'b' => some '\x08'
  | 'f' => some '\x0c'
  | 'n' => some '\n'
  | 'r' => some '\r'
  | 't' => some '\t'
  | _ => none

def hexValue? (c : Char) : Option Nat :=
  if '0' ≤ c ∧ c ≤ '9' then some (c.toNat - 48)
  else if 'a' ≤ c ∧ c ≤ 'f' then some (c.toNat - 87)
  else if 'A' ≤ c ∧ c ≤ 'F' then some (c.toNat - 55)
  else none

/-- The code unit that four hexadecimal digits stand for. -/
def codeUnit? (a b c d : Char) : Option Nat := do
  some (4096 * (← hexValue? a) + 256 * (← hexValue? b) + 16 * (← hexValue? c) + (← hexValue? d))

def isHighSurrogate (unit : Nat) : Bool := 0xD800 ≤ unit && unit ≤ 0xDBFF

def isLowSurrogate (unit : Nat) : Bool := 0xDC00 ≤ unit && unit ≤ 0xDFFF

def joinSurrogates (high low : Nat) : Char :=
  Char.ofNat (0x10000 + 1024 * (high - 0xD800) + (low - 0xDC00))

/-- What is wrong with the text after `\u` when it has less than four characters: it is truncated
when it has less than four bytes in UTF-8. -/
def unitDefect (cs : List Char) : Defect :=
  if cs.foldl (fun size c => size + c.utf8Size) 0 < 4 then .truncated else .malformed

/-- What is wrong with the text after a first half that no complete second escape follows. -/
def pairDefect : List Char → Defect
  | [] => .truncated
  | ['\\'] => .truncated
  | '\\' :: 'u' :: cs => unitDefect cs
  | _ => .malformed

/-- Reads a string after its opening quote; `done` holds the characters read so far, the last one
first. -/
def readString (done : List Char) : List Char → Except Defect (String × List Char)
  | [] => .error .truncated
  | '"' :: rest => .ok (String.ofList done.reverse, rest)
  | '\\' :: [] => .error .truncated
  | '\\' :: 'u' :: a :: b :: c :: d :: rest =>
    match codeUnit? a b c d with
    | none => .error .malformed
    | some unit =>
      if isHighSurrogate unit then
        match rest with
        | '\\' :: 'u' :: e :: f :: g :: h :: rest =>
          match codeUnit? e f g h with
          | none => .error .malformed
          | some low =>
            if isLowSurrogate low then readString (joinSurrogates unit low :: done) rest
            else .error .malformed
        | rest => .error (pairDefect rest)
      else if isLowSurrogate unit then .error .malformed
      else readString (Char.ofNat unit :: done) rest
  | '\\' :: 'u' :: cs => .error (unitDefect cs)
  | '\\' :: letter :: rest =>
    match escape? letter with
    | some c => readString (c :: done) rest
    | none => .error .malformed
  | c :: rest => if c.toNat < 0x20 then .error .malformed else readString (c :: done) rest

/-! ### Values -/

/-- Reads the given characters and answers with a value. -/
def readLiteral (value : Json) : List Char → List Char → Except Defect (Json × List Char)
  | [], rest => .ok (value, rest)
  | _ :: _, [] => .error .truncated
  | expected :: more, c :: rest =>
    if c = expected then readLiteral value more rest else .error .malformed

mutual

/-- Reads one value; `fuel` bounds the calls that are open at a time. -/
def readValue (numbers : NumberReader) : (fuel : Nat) → List Char → Except Defect (Json × List Char)
  | 0, _ => .error .truncated
  | fuel + 1, cs =>
    match skipSpace cs with
    | [] => .error .truncated
    | 'n' :: rest => readLiteral .null ['u', 'l', 'l'] rest
    | 't' :: rest => readLiteral (.bool true) ['r', 'u', 'e'] rest
    | 'f' :: rest => readLiteral (.bool false) ['a', 'l', 's', 'e'] rest
    | '"' :: rest => do
      let (text, rest) ← readString [] rest
      .ok (.string text, rest)
    | '[' :: rest =>
      match skipSpace rest with
      | ']' :: rest => .ok (.array [], rest)
      | rest => readElements numbers fuel [] rest
    | '{' :: rest =>
      match skipSpace rest with
      | '}' :: rest => .ok (.object [], rest)
      | rest => readMembers numbers fuel [] rest
    | '-' :: rest => readNumber numbers true rest
    | c :: rest => if isDigit c then readNumber numbers false (c :: rest) else .error .malformed

/-- Reads the next element of an array and what follows it; `done` holds the elements before it, the
last one first. -/
def readElements (numbers : NumberReader) :
    (fuel : Nat) → (done : List Json) → List Char → Except Defect (Json × List Char)
  | 0, _, _ => .error .truncated
  | fuel + 1, done, cs =>
    match readValue numbers fuel cs with
    | .error defect => .error defect
    | .ok (item, rest) =>
      match skipSpace rest with
      | [] => .error .truncated
      | ']' :: rest => .ok (.array (item :: done).reverse, rest)
      | ',' :: rest => readElements numbers fuel (item :: done) rest
      | _ :: _ => .error .malformed

/-- Reads the next field of an object and what follows it; `done` holds the fields before it. -/
def readMembers (numbers : NumberReader) :
    (fuel : Nat) → (done : List (String × Json)) → List Char → Except Defect (Json × List Char)
  | 0, _, _ => .error .truncated
  | fuel + 1, done, cs =>
    match skipSpace cs with
    | [] => .error .truncated
    | '"' :: rest =>
      match readString [] rest with
      | .error defect => .error defect
      | .ok (key, rest) =>
        match skipSpace rest with
        | [] => .error .truncated
        | ':' :: rest =>
          match readValue numbers fuel rest with
          | .error defect => .error defect
          | .ok (item, rest) =>
            match skipSpace rest with
            | [] => .error .truncated
            | '}' :: rest => .ok (.object (setField key item done), rest)
            | ',' :: rest => readMembers numbers fuel (setField key item done) rest
            | _ :: _ => .error .malformed
        | _ :: _ => .error .malformed
    | _ :: _ => .error .malformed

end

/-- Reads a text that is one value with blanks around it.  Every open call has used up a character
that no call outside it counts, or is one of two for the same character. -/
def parseChars (numbers : NumberReader) (cs : List Char) : Except Defect Json :=
  match readValue numbers (2 * cs.length + 2) cs with
  | .error defect => .error defect
  | .ok (found, rest) => if (skipSpace rest).isEmpty then .ok found else .error .malformed

def parse (numbers : NumberReader) (text : String) : Except Defect Json :=
  parseChars numbers text.toList

end FlatScope.Json
