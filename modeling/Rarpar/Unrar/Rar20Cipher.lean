import Rarpar.Data.Bytes
import Mathlib.Data.UInt

namespace Rarpar.Unrar
open List hiding Vector
open Bytes

/-! `Rar20Decryptor`: the cipher of RAR 2.0 archives, a network of 32 rounds whose keys follow the ciphertext. -/

/-- `crc32_table`. -/
def crc32Table : Vector UInt32 256 :=
  Vector.ofFn fun index =>
    (fun crc : UInt32 => if crc &&& 1 ≠ 0 then (0xEDB88320 : UInt32) ^^^ (crc >>> 1) else crc >>> 1)^[8] (UInt32.ofNat index)

/-- `raw_get_u32`. -/
def rawGetU32 (data : List UInt8) : UInt32 :=
  UInt32.ofNat (leNat (data.take 4))

/-- `raw_put_u32`. -/
def rawPutU32 (value : UInt32) : List UInt8 :=
  leBytes 4 value.toNat

/-- `u32::rotate_left`. -/
def rotateLeftU32 (value : UInt32) (count : Nat) : UInt32 :=
  UInt32.ofBitVec (value.toBitVec.rotateLeft count)

structure Rar20Decryptor where
  key : Vector UInt32 4
  subst : Vector UInt8 256
  crcTab : Vector UInt32 256

/-- The working words `a`, `b`, `c` and `d` of a block. -/
@[ext] structure Words where
  a : UInt32
  b : UInt32
  c : UInt32
  d : UInt32

/-- The halves in the order in which a block is written back. -/
def Words.swap (words : Words) : Words :=
  ⟨words.c, words.d, words.a, words.b⟩

set_option maxRecDepth 2000 in
/-- `INIT_SUBST_TABLE20`. -/
def initSubstTable20 : Vector UInt8 256 :=
  #v[215, 19, 149, 35, 73, 197, 192, 205, 249, 28, 16, 119, 48, 221, 2, 42, 232, 1, 177,
    233, 14, 88, 219, 25, 223, 195, 244, 90, 87, 239, 153, 137, 255, 199, 147, 70, 92, 66,
    246, 13, 216, 40, 62, 29, 217, 230, 86, 6, 71, 24, 171, 196, 101, 113, 218, 123, 93,
    91, 163, 178, 202, 67, 44, 235, 107, 250, 75, 234, 49, 167, 125, 211, 83, 114, 157,
    144, 32, 193, 143, 36, 158, 124, 247, 187, 89, 214, 141, 47, 121, 228, 61, 130, 213,
    194, 174, 251, 97, 110, 54, 229, 115, 57, 152, 94, 105, 243, 212, 55, 209, 245, 63, 11,
    164, 200, 31, 156, 81, 176, 227, 21, 76, 99, 139, 188, 127, 17, 248, 51, 207, 120, 189,
    210, 8, 226, 41, 72, 183, 203, 135, 165, 166, 60, 98, 7, 122, 38, 155, 170, 69, 172,
    252, 238, 39, 134, 59, 128, 236, 27, 240, 80, 131, 3, 85, 206, 145, 79, 154, 142, 159,
    220, 201, 133, 74, 64, 20, 129, 224, 185, 138, 103, 173, 182, 43, 34, 254, 82, 198,
    151, 231, 180, 58, 10, 118, 26, 102, 12, 50, 132, 22, 191, 136, 111, 162, 179, 45, 4,
    148, 108, 161, 56, 78, 126, 242, 222, 15, 175, 146, 23, 33, 241, 181, 190, 77, 225, 0,
    46, 169, 186, 68, 95, 237, 65, 53, 208, 253, 168, 9, 18, 100, 52, 116, 184, 160, 96,
    109, 37, 30, 106, 140, 104, 150, 5, 204, 117, 112, 84]

/-- The inner loop of the key setup: `n1` wraps around the byte until it meets `n2`. -/
def swapUntil (i : Nat) (n2 : UInt8) (subst : Vector UInt8 256) (n1 : UInt8) (k : Nat) : Vector UInt8 256 :=
  if done : n1 = n2 then subst
  else
    swapUntil i n2
      (subst.swap n1.toNat ((n1.toNat + i + k) % 256) n1.toNat_lt (Nat.mod_lt _ (by decide))) (n1 + 1) (k + 1)
termination_by (n2 - n1).toNat
decreasing_by
  have apart := mt UInt8.toNat_inj.mp done
  have low := n1.toNat_lt
  have high := n2.toNat_lt
  simp only [UInt8.toNat_sub, UInt8.toNat_add, UInt8.reduceToNat]
  omega

/-- The walk of one pass `j` over the password, two bytes at a time from offset `i`. -/
def scramblePairs (crcTab : Vector UInt32 256) (j : UInt8) :
    (i : Nat) → (rest : List UInt8) → Vector UInt8 256 → Vector UInt8 256
  | _, [], subst => subst
  | i, left :: rest, subst =>
    let right := rest.headD 0
    let n1 := (crcTab.get (left - j).toFin &&& 0xFF).toUInt8
    let n2 := (crcTab.get (right + j).toFin &&& 0xFF).toUInt8
    scramblePairs crcTab j (i + 2) (rest.drop 1) (swapUntil i n2 subst n1 1)
termination_by _ rest => rest.length
decreasing_by rw [length_drop, length_cons]; omega

namespace Rar20Decryptor

/-- `subst_long`. -/
def substLong (state : Rar20Decryptor) (value : UInt32) : UInt32 :=
  let entry (shift : UInt32) := (state.subst.get ((value >>> shift) &&& 0xFF).toUInt8.toFin).toUInt32
  entry 0 ||| entry 8 <<< 8 ||| entry 16 <<< 16 ||| entry 24 <<< 24

/-- `update_keys`. -/
def updateKeys (state : Rar20Decryptor) (data : Vector UInt8 16) : Rar20Decryptor :=
  { state with
    key := (List.range 4).foldl
      (fun key chunk => Vector.ofFn fun j =>
        key.get j ^^^ state.crcTab.get (data.toList.getD (4 * chunk + j) 0).toFin) state.key }

/-- The block's words under the key. -/
def load (state : Rar20Decryptor) (block : Vector UInt8 16) : Words where
  a := rawGetU32 block.toList ^^^ state.key.get 0
  b := rawGetU32 (block.toList.drop 4) ^^^ state.key.get 1
  c := rawGetU32 (block.toList.drop 8) ^^^ state.key.get 2
  d := rawGetU32 (block.toList.drop 12) ^^^ state.key.get 3

/-- Both loops have one body; they differ in the order of the rounds. -/
def round (state : Rar20Decryptor) (words : Words) (round : Nat) : Words :=
  let key := state.key.get (Fin.ofNat 4 round)
  let ta := words.a ^^^ state.substLong ((words.c + rotateLeftU32 words.d 11) ^^^ key)
  let tb := words.b ^^^ state.substLong ((words.d ^^^ rotateLeftU32 words.c 17) + key)
  ⟨words.c, words.d, ta, tb⟩

/-- The words written back under the key. -/
def store (state : Rar20Decryptor) (words : Words) : Vector UInt8 16 :=
  ⟨(rawPutU32 (words.a ^^^ state.key.get 0) ++ (rawPutU32 (words.b ^^^ state.key.get 1) ++
    (rawPutU32 (words.c ^^^ state.key.get 2) ++ rawPutU32 (words.d ^^^ state.key.get 3)))).toArray, by simp [rawPutU32]⟩

/-- `encrypt_block`: the block and the keys moved by it. -/
def encryptBlock (state : Rar20Decryptor) (block : Vector UInt8 16) : Vector UInt8 16 × Rar20Decryptor :=
  let ciphertext := state.store ((List.range 32).foldl state.round (state.load block)).swap
  (ciphertext, state.updateKeys ciphertext)

/-- `decrypt_block`. -/
def decryptBlock (state : Rar20Decryptor) (ciphertext : Vector UInt8 16) : Vector UInt8 16 × Rar20Decryptor :=
  (state.store ((List.range 32).reverse.foldl state.round (state.load ciphertext)).swap, state.updateKeys ciphertext)

/-- A run over blocks, the keys carried from one to the next. -/
def overBlocks (step : Rar20Decryptor → Vector UInt8 16 → Vector UInt8 16 × Rar20Decryptor) :
    Rar20Decryptor → List (Vector UInt8 16) → List (Vector UInt8 16) × Rar20Decryptor
  | state, [] => ([], state)
  | state, block :: rest =>
    let (out, next) := step state block
    let (tail, last) := overBlocks step next rest
    (out :: tail, last)

/-- `new_from_bytes`. -/
def newFromBytes (pwdBytes : List UInt8) : Rar20Decryptor :=
  let subst := (List.range 256).foldl
    (fun subst j => scramblePairs crc32Table (UInt8.ofNat j) 0 pwdBytes subst) initSubstTable20
  let padded := pwdBytes ++ replicate ((16 - pwdBytes.length % 16) % 16) 0
  let chunks := (List.range (padded.length / 16)).map fun chunk => array 16 padded (16 * chunk)
  (overBlocks encryptBlock ⟨#v[0xD3A3B879, 0x3F6D12F7, 0x7515A235, 0xA4E7F123], subst, crc32Table⟩ chunks).2

section Inverse
variable {state : Rar20Decryptor}

theorem rawGetU32_put (value : UInt32) (rest : List UInt8) : rawGetU32 (rawPutU32 value ++ rest) = value := by
  rw [rawGetU32, rawPutU32, take_left' (length_leBytes ..), leNat_leBytes value.toNat_lt, UInt32.ofNat_toNat]

theorem rawPutU32_get {data : List UInt8} (four : 4 ≤ data.length) : rawPutU32 (rawGetU32 data) = data.take 4 := by
  have length : (data.take 4).length = 4 := length_take_of_le four
  have small := leNat_lt (data.take 4)
  rw [length] at small
  rw [rawPutU32, rawGetU32, UInt32.toNat_ofNat_of_lt' small]
  nth_rewrite 1 [← length]
  exact leBytes_leNat _

theorem drop_rawPutU32 (value : UInt32) (n : Nat) (rest : List UInt8) :
    (rawPutU32 value ++ rest).drop (4 + n) = rest.drop n := by
  rw [← drop_drop, rawPutU32, drop_left' (length_leBytes ..)]

theorem load_store (words : Words) : state.load (state.store words) = words := by
  have last (value : UInt32) : rawGetU32 (rawPutU32 value) = value := append_nil (rawPutU32 value) ▸ rawGetU32_put value []
  simp only [load, store, Vector.toList_mk, drop_rawPutU32 _ 0, drop_rawPutU32 _ 4, drop_rawPutU32 _ 8, drop_zero,
    rawGetU32_put, last, UInt32.xor_assoc, UInt32.xor_self, UInt32.xor_zero]

theorem store_load (block : Vector UInt8 16) : state.store (state.load block) = block := by
  have length := block.length_toList
  have split (n : Nat) : take 4 (drop n block.toList) ++ drop (n + 4) block.toList = drop n block.toList := by
    rw [← drop_drop, take_append_drop]
  have last : take 4 (drop 12 block.toList) = drop 12 block.toList := take_of_length_le (by rw [length_drop, length])
  apply Vector.toList_inj.mp
  simp only [load, store, UInt32.xor_assoc, UInt32.xor_self, UInt32.xor_zero]
  rw [Vector.toList_mk, rawPutU32_get, rawPutU32_get, rawPutU32_get, rawPutU32_get, last, split 8, split 4,
    take_append_drop]
  all_goals simp only [length_drop, length, Nat.reduceSub, Nat.reduceLeDiff]

/-- A round takes back the round with its number, the halves swapped. -/
theorem round_swap_round (words : Words) (number : Nat) :
    state.round (state.round words number).swap number = words.swap := by
  simp only [round, Words.swap, UInt32.xor_assoc, UInt32.xor_self, UInt32.xor_zero]

theorem foldl_round_reverse (words : Words) (rounds : List Nat) :
    rounds.reverse.foldl state.round (rounds.foldl state.round words).swap = words.swap := by
  induction rounds generalizing words with
  | nil => rfl
  | cons number rest ih =>
    rw [reverse_cons, foldl_append, foldl_cons, foldl_cons, ih, foldl_nil, round_swap_round]

theorem decryptBlock_encryptBlock (block : Vector UInt8 16) :
    state.decryptBlock (state.encryptBlock block).1 = (block, (state.encryptBlock block).2) := by
  simp only [decryptBlock, encryptBlock, load_store, foldl_round_reverse]
  exact Prod.ext (store_load block) rfl

end Inverse

theorem swapUntil_perm (i : Nat) (n2 : UInt8) (subst : Vector UInt8 256) (n1 : UInt8) (k : Nat) :
    (swapUntil i n2 subst n1 k).Perm subst := by
  fun_induction swapUntil with
  | case1 => exact .refl _
  | case2 subst n1 k _ ih => exact ih.trans (Vector.swap_perm _ _)

theorem scramblePairs_perm (crcTab : Vector UInt32 256) (j : UInt8) (i : Nat) (rest : List UInt8) (subst : Vector UInt8 256) :
    (scramblePairs crcTab j i rest subst).Perm subst := by
  fun_induction scramblePairs with
  | case1 => exact .refl _
  | case2 i subst left rest _ _ _ ih => exact ih.trans (swapUntil_perm ..)

/-- The keys move, the table stays. -/
theorem overBlocks_encryptBlock_subst (state : Rar20Decryptor) (blocks : List (Vector UInt8 16)) :
    (overBlocks encryptBlock state blocks).2.subst = state.subst := by
  induction blocks generalizing state with
  | nil => rfl
  | cons block rest ih => exact ih _

theorem newFromBytes_perm (pwdBytes : List UInt8) : (newFromBytes pwdBytes).subst.Perm initSubstTable20 := by
  rw [newFromBytes, overBlocks_encryptBlock_subst]
  generalize List.range 256 = passes
  generalize initSubstTable20 = subst
  induction passes generalizing subst with
  | nil => exact .refl _
  | cons j rest ih => exact (ih _).trans (scramblePairs_perm ..)

/-- Decryption takes back the encryption of any run of blocks and both sides end in one state; the table that a
password sets up is a permutation of the initial one. -/
theorem decrypt_encrypt_in_step :
    (∀ (state : Rar20Decryptor) (blocks : List (Vector UInt8 16)),
      overBlocks decryptBlock state (overBlocks encryptBlock state blocks).1 =
        (blocks, (overBlocks encryptBlock state blocks).2)) ∧
      ∀ pwdBytes, (newFromBytes pwdBytes).subst.Perm initSubstTable20 := by
  refine ⟨fun state blocks => ?_, newFromBytes_perm⟩
  induction blocks generalizing state with
  | nil => rfl
  | cons block rest ih => simp only [overBlocks, decryptBlock_encryptBlock, ih]

end Rar20Decryptor
end Rarpar.Unrar
