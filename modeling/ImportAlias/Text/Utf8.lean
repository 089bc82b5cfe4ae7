import ImportAlias.Text.Basic

/-!
# UTF-8

Texts as bytes and back. `decode?` accepts exactly the well-formed sequences;
`decodeLossy` accepts everything and puts U+FFFD in place of each ill-formed
part, where a part is the longest beginning of some character that is cut short.

## The model

The lossy reader is a machine that is either between characters or owes some
continuation bytes. The next byte owed has its own bounds, which rule out
overlong forms, surrogates and code points above U+10FFFF.
-/

namespace ImportAlias.Utf8

/-- The bytes of a text. -/
def encode (t : Text) : Bytes := t.flatMap String.utf8EncodeChar

/-- The text that the bytes spell, if they are well formed. -/
def decode? (bs : Bytes) : Option Text := (String.fromUTF8? bs.toByteArray).map String.toList

/-! ### Ill-formed bytes -/

/-- What stands for an ill-formed part. -/
def replacement : Char := Char.ofNat 0xFFFD

/-- A character of which some bytes are still owed. -/
structure Unfinished where
  /-- How many bytes are owed after the next one. -/
  later : Nat
  /-- The least the next byte may be. -/
  low : UInt8
  /-- The greatest the next byte may be. -/
  high : UInt8
  /-- The bits read so far. -/
  bits : Nat

/-- What the first byte of a character says. -/
inductive Lead where
  /-- The byte is a character by itself. -/
  | single (c : Char)
  /-- More bytes are owed. -/
  | opens (u : Unfinished)
  /-- No character starts with this byte. -/
  | invalid

/-- Reads a byte that should start a character. -/
def lead (b : UInt8) : Lead :=
  if b < 0x80 then .single (Char.ofNat b.toNat)
  else if b < 0xC2 then .invalid
  else if b < 0xE0 then .opens ⟨0, 0x80, 0xBF, b.toNat % 0x20⟩
  else if b < 0xF0 then
    .opens ⟨1, if b = 0xE0 then 0xA0 else 0x80, if b = 0xED then 0x9F else 0xBF, b.toNat % 0x10⟩
  else if b < 0xF5 then
    .opens ⟨2, if b = 0xF0 then 0x90 else 0x80, if b = 0xF4 then 0x8F else 0xBF, b.toNat % 0x08⟩
  else .invalid

/-- Reads a byte between characters: what is written, and what is owed afterwards. -/
def start (b : UInt8) : Text × Option Unfinished :=
  match lead b with
  | .single c => ([c], none)
  | .opens u => ([], some u)
  | .invalid => ([replacement], none)

/-- Reads a byte in either state. A byte that does not continue a character ends
it as ill-formed and is read again as a start. -/
def step : Option Unfinished → UInt8 → Text × Option Unfinished
  | none, b => start b
  | some u, b =>
    if u.low ≤ b ∧ b ≤ u.high then
      let bits := u.bits * 0x40 + b.toNat % 0x40
      match u.later with
      | 0 => ([Char.ofNat bits], none)
      | later + 1 => ([], some ⟨later, 0x80, 0xBF, bits⟩)
    else
      let (t, u') := start b
      (replacement :: t, u')

/-- Reads all bytes from a state. -/
def run : Option Unfinished → Bytes → Text
  | none, [] => []
  | some _, [] => [replacement]
  | u, b :: bs =>
    let (t, u') := step u b
    t ++ run u' bs

/-- The text that the bytes spell, with U+FFFD for each ill-formed part. -/
def decodeLossy (bs : Bytes) : Text := (decode? bs).getD (run none bs)

/-! ### Both ways -/

@[simp] theorem encode_nil : encode [] = [] := rfl

@[simp] theorem encode_append (s t : Text) : encode (s ++ t) = encode s ++ encode t := by
  simp [encode]

/-- What was encoded is decoded. -/
@[simp] theorem decode?_encode (t : Text) : decode? (encode t) = some t := by
  have h : (encode t).toByteArray = (String.ofList t).toByteArray := by
    rw [String.toByteArray_ofList]; rfl
  have hv : (encode t).toByteArray.IsValidUTF8 := by rw [h]; exact (String.ofList t).isValidUTF8
  unfold decode? String.fromUTF8?
  rw [dif_pos hv]
  have : String.fromUTF8 (encode t).toByteArray hv = String.ofList t := by
    apply String.toByteArray_inj.1
    exact h
  simp [this]

/-- Bytes are decoded to the text that they are the bytes of. -/
theorem decode?_eq_some_iff {bs : Bytes} {t : Text} : decode? bs = some t ↔ bs = encode t := by
  constructor
  · intro h
    unfold decode? String.fromUTF8? at h
    split at h
    · next hv =>
      obtain rfl : (String.fromUTF8 bs.toByteArray hv).toList = t := Option.some.inj h
      have hbytes : (encode (String.fromUTF8 bs.toByteArray hv).toList).toByteArray =
          bs.toByteArray := String.utf8Encode_toList
      have hdata := congrArg ByteArray.data hbytes
      rw [List.data_toByteArray, List.data_toByteArray] at hdata
      exact (congrArg Array.toList hdata).symm
    · cases h
  · rintro rfl
    exact decode?_encode t

theorem encode_injective : Function.Injective encode := by
  intro s t h
  simpa using congrArg decode? h

@[simp] theorem decodeLossy_encode (t : Text) : decodeLossy (encode t) = t := by
  simp [decodeLossy]

end ImportAlias.Utf8
