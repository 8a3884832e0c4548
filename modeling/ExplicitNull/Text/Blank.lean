import ExplicitNull.Text.Bytes

/-!
Blank characters are those with the Unicode property `White_Space`, recognised by their UTF-8
bytes: six of one byte, two of two bytes and seventeen of three. Trimming removes them at both
ends of a text and leaves a part of it without a gap.
-/
namespace ExplicitNull.Blank

def isBlank1 (b : UInt8) : Bool := (0x09 ≤ b && b ≤ 0x0D) || b == 0x20

/-- U+0085 and U+00A0. -/
def isBlank2 (b c : UInt8) : Bool := b == 0xC2 && (c == 0x85 || c == 0xA0)

/-- U+1680, U+2000 to U+200A, U+2028, U+2029, U+202F, U+205F and U+3000. -/
def isBlank3 (b c d : UInt8) : Bool :=
  (b == 0xE1 && c == 0x9A && d == 0x80) ||
  (b == 0xE2 && c == 0x80 &&
    ((0x80 ≤ d && d ≤ 0x8A) || d == 0xA8 || d == 0xA9 || d == 0xAF)) ||
  (b == 0xE2 && c == 0x81 && d == 0x9F) ||
  (b == 0xE3 && c == 0x80 && d == 0x80)

def trimStart : Bytes → Bytes
  | [] => []
  | [b] => if isBlank1 b then [] else [b]
  | [b, c] =>
    if isBlank1 b then trimStart [c]
    else if isBlank2 b c then [] else [b, c]
  | b :: c :: d :: rest =>
    if isBlank1 b then trimStart (c :: d :: rest)
    else if isBlank2 b c then trimStart (d :: rest)
    else if isBlank3 b c d then trimStart rest
    else b :: c :: d :: rest

/-- Removes blank characters at the start of a text that is given from its last byte to its first.
-/
def trimReversed : Bytes → Bytes
  | [] => []
  | [b] => if isBlank1 b then [] else [b]
  | [c, b] =>
    if isBlank1 c then trimReversed [b]
    else if isBlank2 b c then [] else [c, b]
  | d :: c :: b :: rest =>
    if isBlank1 d then trimReversed (c :: b :: rest)
    else if isBlank2 c d then trimReversed (b :: rest)
    else if isBlank3 b c d then trimReversed rest
    else d :: c :: b :: rest

def trimEnd (bs : Bytes) : Bytes := (trimReversed bs.reverse).reverse

def trim (bs : Bytes) : Bytes := trimEnd (trimStart bs)

end ExplicitNull.Blank
