/-! # Reading UTF-8 with replacement

    Bytes are read as UTF-8 by a machine that takes one byte at a time. Where
    the bytes stop being a prefix of a well-formed sequence, the longest such
    prefix is given up as one unit and shows as U+FFFD, and reading goes on at
    the byte that did not fit.

    A sequence is well formed when it is the shortest one for its character and
    its character is a Unicode scalar value; both conditions are met by limiting
    the byte that follows the leading one.
-/

namespace LayeredConfig.Text

/-! ## Leading bytes -/

/-- What is known of a character after some of its bytes: the bits read so far,
    how many bytes are missing, and the limits for the next of them. -/
structure Unfinished where
  bits : Nat
  missing : Nat
  low : Nat
  high : Nat
  deriving DecidableEq, Repr

/-- The outcome of a byte in leading position. -/
inductive Lead where
  /-- The byte is a character of its own. -/
  | single (c : Char)
  /-- The byte opens a longer sequence. -/
  | opens (p : Unfinished)
  /-- No sequence begins with this byte. -/
  | invalid
  deriving DecidableEq, Repr

/-- Reads a byte in leading position. -/
def leadOf (byte : Nat) : Lead :=
  if byte < 0x80 then .single (Char.ofNat byte)
  else if byte < 0xC2 then .invalid
  else if byte < 0xE0 then .opens ⟨byte - 0xC0, 1, 0x80, 0xBF⟩
  else if byte = 0xE0 then .opens ⟨0, 2, 0xA0, 0xBF⟩
  else if byte = 0xED then .opens ⟨0xD, 2, 0x80, 0x9F⟩
  else if byte < 0xF0 then .opens ⟨byte - 0xE0, 2, 0x80, 0xBF⟩
  else if byte = 0xF0 then .opens ⟨0, 3, 0x90, 0xBF⟩
  else if byte < 0xF4 then .opens ⟨byte - 0xF0, 3, 0x80, 0xBF⟩
  else if byte = 0xF4 then .opens ⟨4, 3, 0x80, 0x8F⟩
  else .invalid

/-! ## The machine -/

/-- Decodes bytes, where `pending` is the character begun. Bytes that had to be
    given up appear as `none`. -/
def decodeFrom (pending : Option Unfinished) : List UInt8 → List (Option Char)
  | [] => if pending.isSome then [none] else []
  | byte :: rest =>
    let fresh (given : List (Option Char)) : List (Option Char) :=
      given ++
        match leadOf byte.toNat with
        | .single c => some c :: decodeFrom none rest
        | .opens p => decodeFrom (some p) rest
        | .invalid => none :: decodeFrom none rest
    match pending with
    | none => fresh []
    | some p =>
      if p.low ≤ byte.toNat && byte.toNat ≤ p.high then
        let bits := p.bits * 64 + (byte.toNat - 0x80)
        if p.missing = 1 then some (Char.ofNat bits) :: decodeFrom none rest
        else decodeFrom (some ⟨bits, p.missing - 1, 0x80, 0xBF⟩) rest
      -- The character begun is given up, and the byte begins anew.
      else fresh [none]

/-- The characters of the bytes, with `none` for every unit that is not UTF-8. -/
def decodeUnits (bytes : List UInt8) : List (Option Char) :=
  decodeFrom none bytes

/-- The text of the bytes, with U+FFFD for every unit that is not UTF-8. -/
def decodeLossy (bytes : List UInt8) : List Char :=
  (decodeUnits bytes).map (·.getD '\uFFFD')

/-- Whether the bytes are UTF-8 throughout. -/
def isUtf8 (bytes : List UInt8) : Bool :=
  (decodeUnits bytes).all (·.isSome)

end LayeredConfig.Text
