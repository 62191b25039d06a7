import Mathlib.Data.List.Basic
import Mathlib.Tactic.Common

/-!
# `Encoding.Sha1` — the SHA-1 digest of a byte string

The message is padded to whole blocks of 64 bytes; each block is expanded to eighty words and folded into
five chaining words, which are the digest.
-/

namespace Lib

abbrev Byte := BitVec 8

abbrev Word := BitVec 32

/-- The five chaining words. -/
structure Sha1State where
  a : Word
  b : Word
  c : Word
  d : Word
  e : Word
deriving DecidableEq

namespace Sha1

def init : Sha1State := ⟨0x67452301#32, 0xEFCDAB89#32, 0x98BADCFE#32, 0x10325476#32, 0xC3D2E1F0#32⟩

/-- The `n` low bytes of a number, most significant first. -/
def bytesBE (n : ℕ) (x : ℕ) : List Byte :=
  (List.range n).reverse.map fun i => BitVec.ofNat 8 (x >>> (8 * i))

/-- A one bit, zeros up to 56 modulo 64, then the length in bits as eight bytes. -/
def pad (msg : List Byte) : List Byte :=
  msg ++ [0x80#8] ++ List.replicate ((119 - msg.length % 64) % 64) 0#8 ++ bytesBE 8 (8 * msg.length)

/-- Four bytes to a word, most significant first. -/
def words : List Byte → List Word
  | w :: x :: y :: z :: rest => (w ++ x ++ y ++ z) :: words rest
  | _ => []

/-- The word that extends a schedule; the schedule is kept newest first. -/
def nextWord (ws : List Word) : Word :=
  ((ws.getD 2 0) ^^^ (ws.getD 7 0) ^^^ (ws.getD 13 0) ^^^ (ws.getD 15 0)).rotateLeft 1

/-- The eighty words of a block. -/
def schedule (block : List Word) : List Word :=
  ((List.range 64).foldl (fun ws _ => nextWord ws :: ws) block.reverse).reverse

/-- The mixing function and constant of round `t`. -/
def mixing (t : ℕ) (b c d : Word) : Word :=
  if t < 20 then ((b &&& c) ||| (~~~b &&& d)) + 0x5A827999#32
  else if t < 40 then (b ^^^ c ^^^ d) + 0x6ED9EBA1#32
  else if t < 60 then ((b &&& c) ||| (b &&& d) ||| (c &&& d)) + 0x8F1BBCDC#32
  else (b ^^^ c ^^^ d) + 0xCA62C1D6#32

def round (s : Sha1State) (tw : ℕ × Word) : Sha1State :=
  ⟨s.a.rotateLeft 5 + mixing tw.1 s.b s.c s.d + s.e + tw.2, s.a, s.b.rotateLeft 30, s.c, s.d⟩

/-- Fold one block into the chaining words. -/
def compress (s : Sha1State) (block : List Word) : Sha1State :=
  let t := ((List.range 80).zip (schedule block)).foldl round s
  ⟨s.a + t.a, s.b + t.b, s.c + t.c, s.d + t.d, s.e + t.e⟩

/-- Fold the blocks of sixteen words. -/
def blocks : ℕ → List Word → Sha1State → Sha1State
  | 0, _, s => s
  | n + 1, ws, s => blocks n (ws.drop 16) (compress s (ws.take 16))

end Sha1

/-- The SHA-1 digest. -/
def sha1 (msg : List Byte) : BitVec 160 :=
  let padded := Sha1.pad msg
  let s := Sha1.blocks (padded.length / 64) (Sha1.words padded) Sha1.init
  s.a ++ s.b ++ s.c ++ s.d ++ s.e

-- the digest of `abc`
example : sha1 [0x61#8, 0x62#8, 0x63#8] = 0xA9993E364706816ABA3E25717850C26C9CD0D89D#160 := by
  decide +kernel

end Lib
