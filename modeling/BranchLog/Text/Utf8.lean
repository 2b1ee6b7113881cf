/-!
# Bytes as UTF-8 text

`decode?` accepts exactly the encodings of strings. `display` shows any bytes: what is no UTF-8
becomes U+FFFD, one for each maximal piece that begins a character without finishing it, and one
for each byte that cannot begin a character.
-/
namespace BranchLog.Text

def encode (s : String) : List UInt8 := s.toByteArray.data.toList

def decode? (bytes : List UInt8) : Option String := String.fromUTF8? ⟨bytes.toArray⟩

theorem decode?_encode (s : String) : decode? (encode s) = some s := by
  have h : (⟨(encode s).toArray⟩ : ByteArray) = s.toByteArray := by simp [encode]
  rw [decode?, h, String.fromUTF8?, dif_pos s.isValidUTF8]
  rfl

theorem encode_of_decode? {bytes : List UInt8} {s : String} (h : decode? bytes = some s) :
    encode s = bytes := by
  rw [decode?, String.fromUTF8?] at h
  split at h
  · cases h; simp [encode, String.fromUTF8]
  · simp at h

/-- A character of which some bytes are read: its bits so far, how many bytes are missing, and
what the next byte may be. -/
structure Begun where
  bits : Nat
  missing : Nat
  least : UInt8 := 0x80
  greatest : UInt8 := 0xbf

/-- What a first byte above 0x7f begins. Overlong forms, surrogates and numbers past the last code
point are excluded by the range of the second byte. -/
def begin? (b : UInt8) : Option Begun :=
  let bits (n : Nat) := b.toNat % n
  if b < 0xc2 then none
  else if b < 0xe0 then some { bits := bits 32, missing := 1 }
  else if b = 0xe0 then some { bits := bits 16, missing := 2, least := 0xa0 }
  else if b = 0xed then some { bits := bits 16, missing := 2, greatest := 0x9f }
  else if b < 0xf0 then some { bits := bits 16, missing := 2 }
  else if b = 0xf0 then some { bits := bits 8, missing := 3, least := 0x90 }
  else if b < 0xf4 then some { bits := bits 8, missing := 3 }
  else if b = 0xf4 then some { bits := bits 8, missing := 3, greatest := 0x8f }
  else none

def replacement : Char := '\ufffd'

/-- A byte where a character may begin. -/
def readFirst (b : UInt8) : List Char × Option Begun :=
  if b < 0x80 then ([Char.ofNat b.toNat], none)
  else match begin? b with
    | some c => ([], some c)
    | none => ([replacement], none)

def readByte (b : UInt8) : Option Begun → List Char × Option Begun
  | none => readFirst b
  | some c =>
    if c.least ≤ b ∧ b ≤ c.greatest then
      let bits := c.bits * 64 + b.toNat % 64
      if c.missing = 1 then ([Char.ofNat bits], none)
      else ([], some { bits, missing := c.missing - 1 })
    else
      let (out, next) := readFirst b
      (replacement :: out, next)

def replaceInvalid : Option Begun → List UInt8 → List Char
  | none, [] => []
  | some _, [] => [replacement]
  | c, b :: r =>
    let (out, next) := readByte b c
    out ++ replaceInvalid next r

def display (bytes : List UInt8) : String :=
  (decode? bytes).getD (String.ofList (replaceInvalid none bytes))

end BranchLog.Text
