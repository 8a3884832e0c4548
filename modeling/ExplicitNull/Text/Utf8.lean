import ExplicitNull.Text.Bytes

/-!
Reading bytes as UTF-8. After the first byte of a character the reader owes a list of
continuation bytes, each with the range it must lie in; an empty list means that it stands
between two characters. `isValid` asks for texts that are characters throughout. `decode`
reads every text: each longest piece that begins a character and does not complete it, and
each byte that begins none, counts as one replacement character.
-/
namespace ExplicitNull.Utf8

/-- The lowest and the highest byte that may stand at a place. -/
structure Span where
  low : UInt8
  high : UInt8
  deriving DecidableEq, Repr

def Span.holds (s : Span) (b : UInt8) : Bool := s.low ≤ b && b ≤ s.high

def tail : Span := ⟨0x80, 0xBF⟩

/-- What must follow the first byte of a character; `none` for a byte that begins none. -/
def owedAfter (b : UInt8) : Option (List Span) :=
  if b < 0x80 then some []
  else if b < 0xC2 then none
  else if b < 0xE0 then some [tail]
  else if b = 0xE0 then some [⟨0xA0, 0xBF⟩, tail]
  else if b = 0xED then some [⟨0x80, 0x9F⟩, tail]
  else if b < 0xF0 then some [tail, tail]
  else if b = 0xF0 then some [⟨0x90, 0xBF⟩, tail, tail]
  else if b < 0xF4 then some [tail, tail, tail]
  else if b = 0xF4 then some [⟨0x80, 0x8F⟩, tail, tail]
  else none

def validFrom : List Span → Bytes → Bool
  | owed, [] => owed.isEmpty
  | [], b :: rest =>
    match owedAfter b with
    | none => false
    | some owed => validFrom owed rest
  | s :: owed, b :: rest => s.holds b && validFrom owed rest

def isValid (bs : Bytes) : Bool := validFrom [] bs

def leadBits (b : UInt8) : Nat :=
  if b < 0x80 then b.toNat
  else if b < 0xE0 then b.toNat - 0xC0
  else if b < 0xF0 then b.toNat - 0xE0
  else b.toNat - 0xF0

def replacement : Char := Char.ofNat 0xFFFD

def decodeFrom : List Span → Nat → Bytes → List Char
  | owed, _, [] => if owed.isEmpty then [] else [replacement]
  | [], _, b :: rest =>
    match owedAfter b with
    | none => replacement :: decodeFrom [] 0 rest
    | some [] => Char.ofNat b.toNat :: decodeFrom [] 0 rest
    | some owed => decodeFrom owed (leadBits b) rest
  | s :: owed, bits, b :: rest =>
    if s.holds b then
      let bits' := bits * 64 + (b.toNat - 0x80)
      if owed.isEmpty then Char.ofNat bits' :: decodeFrom [] 0 rest
      else decodeFrom owed bits' rest
    else match owedAfter b with
      | none => replacement :: replacement :: decodeFrom [] 0 rest
      | some [] => replacement :: Char.ofNat b.toNat :: decodeFrom [] 0 rest
      | some owed' => replacement :: decodeFrom owed' (leadBits b) rest

/-- The characters of a text, with a replacement character for each broken piece. -/
def decode (bs : Bytes) : List Char := decodeFrom [] 0 bs

def encode (cs : List Char) : Bytes := cs.flatMap String.utf8EncodeChar

def repair (bs : Bytes) : Bytes := encode (decode bs)

end ExplicitNull.Utf8
