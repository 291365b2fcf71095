/-
  UdpSpeeder.Cook.Codec — what a datagram goes through on its way to the wire and back
  (`packet_cook.cpp`): a CRC-32C behind it, a random IV that masks it, a key over everything.
  Every `xor_tile` of a call is on the same data, so a call has one `Site`.

  Random numbers are a stream, one number for each call of the generator. `de_cook` works on
  the bytes that arrived: a read outside them is a fault.
-/

import UdpSpeeder.Cook.Build

namespace UdpSpeeder.Cook

open Lib

/-! ## Random numbers -/

/-- What `my_random` gives from now on. -/
abbrev Draws := Nat → BitVec 64

def Draws.tail (d : Draws) : Draws := fun i => d (i + 1)

/-- Byte `i` of a number in memory. -/
def byteOf (v : BitVec 64) (i : Nat) : Byte := .ofNat (v.toNat / 256 ^ i)

/-- `get_fake_random_chars`: eight bytes of each number, and what is left of the last. -/
def getFakeRandomChars (mem : Nat → Byte) (off len : Nat) (d : Draws) : (Nat → Byte) × Draws :=
  let (mem, d) := loop (len / 8) (fun m (s : (Nat → Byte) × Draws) => (copyTo s.1 (off + m * 8) (byteOf (s.2 0)) 8, s.2.tail)) (mem, d)
  if len % 8 ≠ 0 then (copyTo mem (off + len / 8 * 8) (byteOf (d 0)) (len % 8), d.tail) else (mem, d)

/-- `random_between`; `myexit` when `a > b`. -/
def randomBetween (a b : Nat) (d : Draws) : Except Fault (Nat × Draws) := do
  check (a ≤ b) (.assert "min >max??")
  if a = b then .ok (a, d) else .ok (a + ((d 0).setWidth 32).toNat % (b + 1 - a), d.tail)

/-! ## CRC-32C -/

/-- Entry `i` of slice `s` of `crc32c_table`. -/
def crc32cTable : Nat → Nat → U32
  | 0, i => loop 8 (fun _ crc => (crc >>> 1) ^^^ (0x82F63B78#32 &&& -(crc &&& 1#32))) (.ofNat 32 i)
  | s + 1, i =>
    let crc := crc32cTable s i
    crc32cTable 0 (crc &&& 0xff#32).toNat ^^^ (crc >>> 8)

/-- The loops of `crc32c_sw`: eight bytes at a time, then one. -/
def crc32cFold : Bytes → U32 → U32
  | p0 :: p1 :: p2 :: p3 :: p4 :: p5 :: p6 :: p7 :: p, crc =>
    let crc := crc ^^^ .ofNat 32 (p0.toNat + p1.toNat * 256 + p2.toNat * 65536 + p3.toNat * 16777216)
    crc32cFold p (crc32cTable 7 (crc &&& 0xff#32).toNat ^^^ crc32cTable 6 ((crc >>> 8) &&& 0xff#32).toNat ^^^
      crc32cTable 5 ((crc >>> 16) &&& 0xff#32).toNat ^^^ crc32cTable 4 ((crc >>> 24) &&& 0xff#32).toNat ^^^
      crc32cTable 3 p4.toNat ^^^ crc32cTable 2 p5.toNat ^^^ crc32cTable 1 p6.toNat ^^^ crc32cTable 0 p7.toNat)
  | p0 :: p, crc => crc32cFold p (crc32cTable 0 ((crc ^^^ .ofNat 32 p0.toNat) &&& 0xff#32).toNat ^^^ (crc >>> 8))
  | [], crc => crc

/-- `crc32c_sw`; the instructions that replace it compute the same code. -/
def crc32c (data : Bytes) : U32 := ~~~ crc32cFold data (~~~ 0#32)

/-! ## The context -/

structure CookCtx where
  key : Nat → Byte
  keyLen : Nat
  keyTileLen : Nat
  keyTile : Nat → Byte
  ivMin : Nat
  ivMax : Nat
  disableChecksum : Bool
  disableObscure : Bool
  disableXor : Bool
  deriving Inhabited

/-- `sizeof(key_tile)`. -/
def keyTileSize : Nat := 16000

/-- `strlen` of the 1000 characters of `key`. -/
def strlen (key : Nat → Byte) : Except Fault Nat :=
  match (List.range 1000).find? fun i => key i = 0 with
  | some n => .ok n
  | none => .error (.range "key")

/-- `cook_ctx_prepare_key`. -/
def CookCtx.prepareKey (build : Build) (ctx : CookCtx) : Except Fault CookCtx := do
  let keyLen ← strlen ctx.key
  if keyLen = 0 then .ok { ctx with keyLen := 0, keyTileLen := 0 }
  else do
    let keyTileLen := cookLcm keyLen build.width
    check (keyTileLen + build.width ≤ keyTileSize) (.assert "ctx->key_tile_len + COOK_VEC_WIDTH <= sizeof(ctx->key_tile)")
    let tile := expandTile ctx.keyTile keyTileLen ctx.key keyLen
    .ok { ctx with keyLen := keyLen, keyTileLen := keyTileLen, keyTile := copyTo tile keyTileLen tile build.width }

/-! ## The steps -/

/-- `if (!disable_...)`, a step. -/
def enabled {α : Type} (off : Bool) (s : α) (step : Except Fault α) : Except Fault α := if off then .ok s else step

section Steps

variable (site : Site) (ctx : CookCtx)

def encrypt0 (data : Buffer) (len : Nat) : Except Fault Buffer :=
  if ctx.keyTileLen = 0 then .ok data else site.xorTile data len ⟨ctx.keyTile, keyTileSize⟩ ctx.keyTileLen

def doObscure (data : Buffer) (len : Nat) (d : Draws) : Except Fault (Buffer × Nat × Draws) := do
  check (len < 3800) (.assert "len < cook_buf_len")
  let (ivLen, d) ← randomBetween ctx.ivMin ctx.ivMax d
  data.within len (ivLen + 1) "data"
  let (mem, d) := getFakeRandomChars data.mem len ivLen d
  let data ← xorWithPattern site { data with mem := upd mem (ivLen + len) (.ofNat ivLen) } len len ivLen
  .ok (data, len + ivLen + 1, d)

/-- What it returns, the data and its length. -/
def deObscure (data : Buffer) (len : Int) : Except Fault (Int × Buffer × Int) :=
  if len < 1 then .ok (-1, data, len)
  else do
    data.within (len - 1) 1 "data"
    let ivLen := (data.mem (len - 1).toNat).toNat
    if ivLen < ctx.ivMin ∨ ctx.ivMax < ivLen then .ok (-1, data, len)
    else if len < 1 + ivLen then .ok (-1, data, len)
    else do
      let len := len - 1 - ivLen
      let data ← xorWithPattern site data len.toNat len.toNat ivLen
      .ok (0, data, len)

def putCrc32 (s : Buffer) (len : Nat) : Except Fault (Buffer × Nat) :=
  if ctx.disableChecksum then .ok (s, len)
  else do
    s.within 0 len "s"
    s.within len 4 "s"
    .ok ({ s with mem := writeU32 s.mem len (crc32c (slice s.mem 0 len)) }, len + 4)

def rmCrc32 (s : Buffer) (len : Int) : Except Fault (Int × Buffer × Int) :=
  if ctx.disableChecksum then .ok (0, s, len)
  else do
    check (0 ≤ len) (.assert "len >= 0")
    let len := len - 4
    if len < 0 then .ok (-1, s, len)
    else do
      s.within len 4 "s"
      s.within 0 len.toNat "s"
      let crcIn := readU32 s.mem len.toNat
      let crc := crc32c (slice s.mem 0 len.toNat)
      if crc ≠ crcIn then .ok (-1, s, len) else .ok (0, s, len)

/-- `do_cook`: the data, its length, and the numbers that are left. -/
def doCook (data : Buffer) (len : Nat) (d : Draws) : Except Fault (Buffer × Nat × Draws) := do
  let (data, len) ← putCrc32 ctx data len
  let (data, len, d) ← enabled ctx.disableObscure (data, len, d) (doObscure site ctx data len d)
  let data ← enabled ctx.disableXor data (encrypt0 site ctx data len)
  .ok (data, len, d)

structure DeCookOut where
  ret : Int
  data : Buffer
  len : Int

/-- The second half of `de_cook`. -/
def deCookRest (data : Buffer) (len : Int) : Except Fault DeCookOut := do
  let (ret, data, len) ← enabled ctx.disableObscure (0, data, len) (deObscure site ctx data len)
  if ret ≠ 0 then .ok ⟨-1, data, len⟩
  else do
    let (ret, data, len) ← rmCrc32 ctx data len
    if ret ≠ 0 then .ok ⟨-2, data, len⟩ else .ok ⟨0, data, len⟩

def deCook (data : Buffer) (len : Nat) : Except Fault DeCookOut := do
  let data ← enabled ctx.disableXor data (encrypt0 site ctx data len)
  deCookRest site ctx data len

end Steps

/-- A check value: `123456789`. -/
example : crc32c ([49, 50, 51, 52, 53, 54, 55, 56, 57].map Byte.ofNat) = 0xE3069283#32 := by decide +kernel

end UdpSpeeder.Cook
