import Pnet.CTypes

/-! The compressed metadata integers of `image/compress.c`. Each writer returns
the bytes it leaves in its buffer, whose number is the C return value. -/
namespace Pnet.Image

abbrev ILToken := ILUInt32

/-- The forms hold 7, 14 and 29 bits; the five-byte form is an extension that
covers every 32-bit value. -/
def ilMetaCompressData (data : ILUInt32) : List ILUInt8 :=
  if data < 0x80 then
    [data.setWidth 8]
  else if data < 0x4000 then
    [((data >>> 8) ||| 0x80).setWidth 8, data.setWidth 8]
  else if data < 0x20000000 then
    [((data >>> 24) ||| 0xC0).setWidth 8, (data >>> 16).setWidth 8,
      (data >>> 8).setWidth 8, data.setWidth 8]
  else
    [0xE0, (data >>> 24).setWidth 8, (data >>> 16).setWidth 8,
      (data >>> 8).setWidth 8, data.setWidth 8]

def tokenMask : ILToken := 0xFF000000
def tokenTypeDef : ILToken := 0x02000000
def tokenTypeRef : ILToken := 0x01000000
def tokenTypeSpec : ILToken := 0x1B000000
def tokenBaseType : ILToken := 0x72000000

/-- A token of any other table has no compressed form and writes nothing. -/
def ilMetaCompressToken (token : ILToken) : List ILUInt8 :=
  let tokenId := token &&& ~~~tokenMask
  let tokenClass := token &&& tokenMask
  if tokenClass = tokenTypeDef then ilMetaCompressData ((tokenId <<< 2) ||| 0x00)
  else if tokenClass = tokenTypeRef then ilMetaCompressData ((tokenId <<< 2) ||| 0x01)
  else if tokenClass = tokenTypeSpec then ilMetaCompressData ((tokenId <<< 2) ||| 0x02)
  else if tokenClass = tokenBaseType then ilMetaCompressData ((tokenId <<< 2) ||| 0x03)
  else []

/-- The sign goes to the lowest bit of the last byte and the magnitude bits
move up by one, so each form holds one bit less than in `ilMetaCompressData`. -/
def ilMetaCompressInt (data : ILInt32) : List ILUInt8 :=
  if 0 ≤ data.toInt then
    if data.toInt < 0x40 then
      [(data <<< 1).setWidth 8]
    else if data.toInt < 2 ^ 13 then
      [((data.sshiftRight 7 &&& 0x3F) ||| 0x80).setWidth 8, (data <<< 1).setWidth 8]
    else if data.toInt < 2 ^ 28 then
      [(data.sshiftRight 23 ||| 0xC0).setWidth 8, (data.sshiftRight 15).setWidth 8,
        (data.sshiftRight 7).setWidth 8, (data <<< 1).setWidth 8]
    else
      [0xE0, (data.sshiftRight 23).setWidth 8, (data.sshiftRight 15).setWidth 8,
        (data.sshiftRight 7).setWidth 8, (data <<< 1).setWidth 8]
  else
    if -0x40 ≤ data.toInt then
      [((data <<< 1).setWidth 8 &&& 0x7E) ||| 0x01]
    else if -(2 ^ 13) ≤ data.toInt then
      [((data.sshiftRight 7 &&& 0x3F) ||| 0x80).setWidth 8, ((data <<< 1) ||| 0x01).setWidth 8]
    else if -(2 ^ 29) ≤ data.toInt then
      -- the positive side stops at 28 bits; this bound is one bit wider
      [((data.sshiftRight 23 &&& 0x1F) ||| 0xC0).setWidth 8, (data.sshiftRight 15).setWidth 8,
        (data.sshiftRight 7).setWidth 8, ((data <<< 1) ||| 0x01).setWidth 8]
    else
      [0xE1, (data.sshiftRight 23).setWidth 8, (data.sshiftRight 15).setWidth 8,
        (data.sshiftRight 7).setWidth 8, ((data <<< 1) ||| 0x01).setWidth 8]

end Pnet.Image

/-! ### Reading

The readers of `image/uncompress.c`. -/
namespace Pnet.Image

/-- `data` holds the `len` bytes that are left: a read past the end sets
`error`, and where the source sets `len` to zero nothing is left. -/
structure ILMetaDataRead where
  data : List ILUInt8
  error : Bool
deriving DecidableEq, Repr

/-- The state after a read that ran out of bytes or met an unknown form. -/
def ILMetaDataRead.fail : ILMetaDataRead := ⟨[], true⟩

def ilMetaUncompressData (reader : ILMetaDataRead) : ILUInt32 × ILMetaDataRead :=
  match reader.data with
  | [] => (0, { reader with error := true })
  | ch :: data =>
    if ch < 0x80 then
      (ch.setWidth 32, { reader with data })
    else if ch &&& 0xC0 = 0x80 then
      match data with
      | ch2 :: data =>
        (((ch &&& 0x3F).setWidth 32 <<< 8) ||| ch2.setWidth 32, { reader with data })
      | [] => (0, .fail)
    else if ch &&& 0xE0 = 0xC0 then
      match data with
      | ch2 :: ch3 :: ch4 :: data =>
        (((ch &&& 0x1F).setWidth 32 <<< 24) ||| (ch2.setWidth 32 <<< 16) |||
          (ch3.setWidth 32 <<< 8) ||| ch4.setWidth 32, { reader with data })
      | _ => (0, .fail)
    else if ch &&& 0xF0 = 0xE0 then
      match data with
      | ch :: ch2 :: ch3 :: ch4 :: data =>
        ((ch.setWidth 32 <<< 24) ||| (ch2.setWidth 32 <<< 16) |||
          (ch3.setWidth 32 <<< 8) ||| ch4.setWidth 32, { reader with data })
      | _ => (0, .fail)
    else (0, .fail)

def ilMetaUncompressToken (reader : ILMetaDataRead) : ILToken × ILMetaDataRead :=
  let (item, reader) := ilMetaUncompressData reader
  if reader.error then (0, reader)
  else if item &&& 0x03 = 0x00 then ((item >>> 2) ||| tokenTypeDef, reader)
  else if item &&& 0x03 = 0x01 then ((item >>> 2) ||| tokenTypeRef, reader)
  else if item &&& 0x03 = 0x02 then ((item >>> 2) ||| tokenTypeSpec, reader)
  else ((item >>> 2) ||| tokenBaseType, reader)

def ilMetaUncompressInt (reader : ILMetaDataRead) : ILInt32 × ILMetaDataRead :=
  match reader.data with
  | [] => (0, { reader with error := true })
  | ch :: data =>
    if ch &&& 0x80 = 0x00 then
      if ch &&& 0x01 = 0x00 then ((ch >>> 1).setWidth 32, { reader with data })
      else (((ch >>> 1) ||| 0xC0).signExtend 32, { reader with data })
    else if ch &&& 0xC0 = 0x80 then
      match data with
      | ch2 :: data =>
        let value : ILUInt32 := ((ch &&& 0x3F).setWidth 32 <<< 8) ||| ch2.setWidth 32
        if value &&& 0x01 = 0x00 then (value >>> 1, { reader with data })
        else ((value >>> 1) ||| 0xFFFFE000, { reader with data })
      | [] => (0, .fail)
    else if ch &&& 0xE0 = 0xC0 then
      match data with
      | ch2 :: ch3 :: ch4 :: data =>
        let value : ILUInt32 := ((ch &&& 0x1F).setWidth 32 <<< 24) ||| (ch2.setWidth 32 <<< 16) |||
          (ch3.setWidth 32 <<< 8) ||| ch4.setWidth 32
        if value &&& 0x01 = 0x00 then (value >>> 1, { reader with data })
        else ((value >>> 1) ||| 0xF0000000, { reader with data })
      | _ => (0, .fail)
    else
      match data with
      | ch :: ch2 :: ch3 :: ch4 :: data =>
        -- every other first byte is the five-byte form, which is returned unshifted
        ((ch.setWidth 32 <<< 24) ||| (ch2.setWidth 32 <<< 16) |||
          (ch3.setWidth 32 <<< 8) ||| ch4.setWidth 32, { reader with data })
      | _ => (0, .fail)

end Pnet.Image

/-! ### Reading memory

The same readers with the pointer and the count of the source. Memory that must not be read
is `none`, and so is a run that reads it. -/
namespace Pnet.Image

/-- `struct _tagILMetaDataRead` -/
structure ILMetaDataPointer where
  data : Nat
  len : Nat
  error : Bool
deriving DecidableEq, Repr

variable (memory : Nat → Option ILUInt8)

def ilMetaUncompressDataAt (reader : ILMetaDataPointer) :
    Option (ILUInt32 × ILMetaDataPointer) :=
  if reader.len = 0 then some (0, { reader with error := true })
  else
    (memory reader.data).bind fun ch =>
    let data := reader.data + 1
    let len := reader.len - 1
    if ch < 0x80 then
      some (ch.setWidth 32, { reader with data, len })
    else if ch &&& 0xC0 = 0x80 then
      if len = 0 then some (0, { data, len, error := true })
      else
        (memory data).bind fun ch2 =>
        some (((ch &&& 0x3F).setWidth 32 <<< 8) ||| ch2.setWidth 32,
          { reader with data := data + 1, len := len - 1 })
    else if ch &&& 0xE0 = 0xC0 then
      if len < 3 then some (0, { data, len := 0, error := true })
      else
        (memory data).bind fun ch2 =>
        (memory (data + 1)).bind fun ch3 =>
        (memory (data + 2)).bind fun ch4 =>
        some (((ch &&& 0x1F).setWidth 32 <<< 24) ||| (ch2.setWidth 32 <<< 16) |||
            (ch3.setWidth 32 <<< 8) ||| ch4.setWidth 32,
          { reader with data := data + 3, len := len - 3 })
    else if ch &&& 0xF0 = 0xE0 then
      if len < 4 then some (0, { data, len := 0, error := true })
      else
        (memory data).bind fun ch =>
        (memory (data + 1)).bind fun ch2 =>
        (memory (data + 2)).bind fun ch3 =>
        (memory (data + 3)).bind fun ch4 =>
        some ((ch.setWidth 32 <<< 24) ||| (ch2.setWidth 32 <<< 16) |||
            (ch3.setWidth 32 <<< 8) ||| ch4.setWidth 32,
          { reader with data := data + 4, len := len - 4 })
    else some (0, { data, len := 0, error := true })

def ilMetaUncompressTokenAt (reader : ILMetaDataPointer) : Option (ILToken × ILMetaDataPointer) :=
  (ilMetaUncompressDataAt memory reader).map fun (item, reader) =>
    if reader.error then (0, reader)
    else if item &&& 0x03 = 0x00 then ((item >>> 2) ||| tokenTypeDef, reader)
    else if item &&& 0x03 = 0x01 then ((item >>> 2) ||| tokenTypeRef, reader)
    else if item &&& 0x03 = 0x02 then ((item >>> 2) ||| tokenTypeSpec, reader)
    else ((item >>> 2) ||| tokenBaseType, reader)

end Pnet.Image
