import ExplicitNull.Json.Value

/-!
A strict reader of JSON texts: no comments, no trailing commas, no control characters in
strings, no half of a surrogate pair, and nothing but blanks behind the value. The fuel of the
mutual readers is twice the length of the text and more, which the nesting cannot exceed.
-/
namespace ExplicitNull.Json

def isBlank (b : UInt8) : Bool :=
  b == byte ' ' || b == byte '\n' || b == byte '\r' || b == byte '\t'

def skipBlanks (bs : Bytes) : Bytes := bs.dropWhile isBlank

def hexValue? (b : UInt8) : Option Nat :=
  if Ascii.isDigit b then some (b.toNat - (byte '0').toNat)
  else
    let c := Ascii.toLower b
    if byte 'a' ≤ c ∧ c ≤ byte 'f' then some (c.toNat - (byte 'a').toNat + 10) else none

def hexQuad? : Bytes → Option Nat
  | a :: b :: c :: d :: _ => do
    let a ← hexValue? a
    let b ← hexValue? b
    let c ← hexValue? c
    let d ← hexValue? d
    some (((a * 16 + b) * 16 + c) * 16 + d)
  | _ => none

/-- The character behind `\u` and the number of bytes that write it, a second escape included if
the first is the high half of a pair. -/
def unicodeEscape? (bs : Bytes) : Option (Char × Nat) :=
  match hexQuad? bs with
  | none => none
  | some high =>
    if high < 0xD800 ∨ 0xE000 ≤ high then some (Char.ofNat high, 4)
    else if 0xDC00 ≤ high then none
    else if (bs.drop 4).take 2 = utf8 "\\u" then
      match hexQuad? (bs.drop 6) with
      | none => none
      | some low =>
        if 0xDC00 ≤ low ∧ low < 0xE000 then
          some (Char.ofNat (0x10000 + (high - 0xD800) * 0x400 + (low - 0xDC00)), 10)
        else none
    else none

def simpleEscape? (b : UInt8) : Option UInt8 :=
  if b = byte '\x22' ∨ b = byte '\\' ∨ b = byte '/' then some b
  else if b = byte 'b' then some 0x08
  else if b = byte 'f' then some 0x0C
  else if b = byte 'n' then some 0x0A
  else if b = byte 'r' then some 0x0D
  else if b = byte 't' then some 0x09
  else none

def readString : Bytes → Option (Bytes × Bytes)
  | [] => none
  | b :: rest =>
    if b = byte '\x22' then some ([], rest)
    else if b = byte '\\' then
      match rest with
      | [] => none
      | c :: rest' =>
        if c = byte 'u' then
          match unicodeEscape? rest' with
          | none => none
          | some (ch, n) =>
            (readString (rest'.drop n)).map fun (text, left) =>
              (String.utf8EncodeChar ch ++ text, left)
        else
          match simpleEscape? c with
          | none => none
          | some d => (readString rest').map fun (text, left) => (d :: text, left)
    else if b < 0x20 then none
    else (readString rest).map fun (text, left) => (b :: text, left)
termination_by bs => bs.length
decreasing_by all_goals simp_wf <;> omega

def readDigits? (bs : Bytes) : Option (Bytes × Bytes) :=
  let digits := bs.takeWhile Ascii.isDigit
  if digits.isEmpty then none else some (digits, bs.drop digits.length)

/-- The whole part of a number has no leading zero. -/
def readWhole? (bs : Bytes) : Option (Bytes × Bytes) :=
  match bs with
  | [] => none
  | b :: rest => if b = byte '0' then some ([b], rest) else readDigits? bs

def readFraction? (bs : Bytes) : Option (Bytes × Bytes) :=
  match bs with
  | [] => some ([], [])
  | b :: rest =>
    if b = byte '.' then (readDigits? rest).map fun (ds, left) => (b :: ds, left)
    else some ([], bs)

def readExponent? (bs : Bytes) : Option (Bytes × Bytes) :=
  match bs with
  | [] => some ([], [])
  | b :: rest =>
    if b = byte 'e' ∨ b = byte 'E' then
      match rest with
      | [] => none
      | s :: rest' =>
        if s = byte '+' ∨ s = byte '-' then
          (readDigits? rest').map fun (ds, left) => (b :: s :: ds, left)
        else (readDigits? rest).map fun (ds, left) => (b :: ds, left)
    else some ([], bs)

def readNumber? (bs : Bytes) : Option (Bytes × Bytes) := do
  let sign := if bs.head? = some (byte '-') then [byte '-'] else []
  let (whole, bs) ← readWhole? (bs.drop sign.length)
  let (fraction, bs) ← readFraction? bs
  let (exponent, bs) ← readExponent? bs
  some (sign ++ whole ++ fraction ++ exponent, bs)

def readWord? (word : String) (value : Json) (bs : Bytes) : Option (Json × Bytes) :=
  if (utf8 word).isPrefixOf bs then some (value, bs.drop (utf8 word).length) else none

mutual

def readValue : (fuel : Nat) → Bytes → Option (Json × Bytes)
  | 0, _ => none
  | fuel + 1, bs =>
    match skipBlanks bs with
    | [] => none
    | b :: rest =>
      if b = byte '\x22' then (readString rest).map fun (text, left) => (.string text, left)
      else if b = byte '[' then
        match skipBlanks rest with
        | [] => none
        | c :: rest' =>
          if c = byte ']' then some (.array [], rest')
          else (readItems fuel rest).map fun (items, left) => (.array items, left)
      else if b = byte '\x7b' then
        match skipBlanks rest with
        | [] => none
        | c :: rest' =>
          if c = byte '\x7d' then some (.object [], rest')
          else (readMembers fuel rest).map fun (members, left) => (.object members, left)
      else if b = byte 'n' then readWord? "null" .null (b :: rest)
      else if b = byte 't' then readWord? "true" (.bool true) (b :: rest)
      else if b = byte 'f' then readWord? "false" (.bool false) (b :: rest)
      else (readNumber? (b :: rest)).map fun (digits, left) => (.number digits, left)

def readItems : (fuel : Nat) → Bytes → Option (List Json × Bytes)
  | 0, _ => none
  | fuel + 1, bs =>
    match readValue fuel bs with
    | none => none
    | some (item, left) =>
      match skipBlanks left with
      | [] => none
      | b :: rest =>
        if b = byte ',' then (readItems fuel rest).map fun (items, left) => (item :: items, left)
        else if b = byte ']' then some ([item], rest)
        else none

def readMembers : (fuel : Nat) → Bytes → Option (List (Bytes × Json) × Bytes)
  | 0, _ => none
  | fuel + 1, bs =>
    match skipBlanks bs with
    | [] => none
    | q :: rest =>
      if q ≠ byte '\x22' then none
      else match readString rest with
        | none => none
        | some (key, left) =>
          match skipBlanks left with
          | [] => none
          | c :: rest =>
            if c ≠ byte ':' then none
            else match readValue fuel rest with
              | none => none
              | some (value, left) =>
                match skipBlanks left with
                | [] => none
                | b :: rest =>
                  if b = byte ',' then
                    (readMembers fuel rest).map fun (members, left) =>
                      ((key, value) :: members, left)
                  else if b = byte '\x7d' then some ([(key, value)], rest)
                  else none

end

def read? (bs : Bytes) : Option Json :=
  match readValue (2 * bs.length + 2) bs with
  | some (value, left) => if skipBlanks left = [] then some value else none
  | none => none

end ExplicitNull.Json
