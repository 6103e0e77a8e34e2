/-!
# Lossy UTF-8

Decoding that never fails. Where the bytes are not UTF-8, each maximal part that begins a character
but does not finish it, and each byte that cannot begin one, becomes a replacement character. An
ASCII byte always stands for itself, whatever comes before it.
-/

namespace FlatSyntax.Utf8

/-- The character that stands for bytes that are not UTF-8. -/
def replacement : Char := '�'

/-- A character that has begun and is not finished. -/
structure Pending where
  /-- The bits of the character so far. -/
  bits : Nat
  /-- The number of bytes missing. -/
  missing : Nat
  /-- The least value of the next byte. -/
  least : Nat
  /-- The greatest value of the next byte. -/
  most : Nat
  deriving DecidableEq, Repr

/-- The first byte of a character: what it completes, and the character it begins. The narrower
ranges for the second byte exclude encodings that are too long, surrogates, and code points past
the last one. -/
def start (byte : UInt8) : List Char × Option Pending :=
  let b := byte.toNat
  if b < 0x80 then ([Char.ofNat b], none)
  else if b < 0xc2 then ([replacement], none)
  else if b < 0xe0 then ([], some ⟨b - 0xc0, 1, 0x80, 0xbf⟩)
  else if b = 0xe0 then ([], some ⟨b - 0xe0, 2, 0xa0, 0xbf⟩)
  else if b = 0xed then ([], some ⟨b - 0xe0, 2, 0x80, 0x9f⟩)
  else if b < 0xf0 then ([], some ⟨b - 0xe0, 2, 0x80, 0xbf⟩)
  else if b = 0xf0 then ([], some ⟨b - 0xf0, 3, 0x90, 0xbf⟩)
  else if b < 0xf4 then ([], some ⟨b - 0xf0, 3, 0x80, 0xbf⟩)
  else if b = 0xf4 then ([], some ⟨b - 0xf0, 3, 0x80, 0x8f⟩)
  else ([replacement], none)

/-- The next byte. One that cannot continue the pending character ends it with a replacement and is
read again as a first byte. -/
def step : Option Pending → UInt8 → List Char × Option Pending
  | none, byte => start byte
  | some p, byte =>
    if p.least ≤ byte.toNat ∧ byte.toNat ≤ p.most then
      let bits := p.bits * 64 + byte.toNat % 64
      if p.missing = 1 then ([Char.ofNat bits], none)
      else ([], some ⟨bits, p.missing - 1, 0x80, 0xbf⟩)
    else (replacement :: (start byte).1, (start byte).2)

/-- Decodes bytes to characters, given the pending character. -/
def decodeFrom : Option Pending → List UInt8 → List Char
  | pending, [] => if pending.isSome then [replacement] else []
  | pending, byte :: rest => (step pending byte).1 ++ decodeFrom (step pending byte).2 rest

/-- The text of a run of bytes, with replacement characters where the bytes are not UTF-8. -/
def decode (bytes : List UInt8) : String := String.ofList (decodeFrom none bytes)

/-- The bytes of a text. -/
def encode (text : String) : List UInt8 := text.toByteArray.toList

/-- Whether every character is ASCII. -/
def isAscii (text : String) : Bool := text.toList.all fun c => c.toNat < 0x80

end FlatSyntax.Utf8
