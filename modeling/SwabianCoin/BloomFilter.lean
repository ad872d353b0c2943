import SwabianCoin.P2PConnector
import SwabianCoin.Lib.Bits

/-!
# The filter of the active peers

`BloomFilter` keeps a set of hashes in an array of bits: a hash stands for two positions, and
inserting it sets both bits. Peers send their filters around and merge what they receive.

A filter *represents* a set of hashes when its one bits are the positions of these hashes. Clearing,
inserting and merging are the empty set, `insert` and the union of the represented sets, and a
filter of known size is determined by the set. So whatever the tree of inserts and merges that
led to a filter, only the set of the hashes below it counts.
-/

namespace SwabianCoin

open Bits

/-! ## Bits -/

/-- The first position of a hash: `static_cast` keeps the lowest 32 bits. -/
def idx1 (hash : Hash) (len : UInt32) : UInt32 := UInt32.ofNat hash.val % (len * 8)

/-- The second position of a hash: the 32 bits after that. -/
def idx2 (hash : Hash) (len : UInt32) : UInt32 := UInt32.ofNat (hash.val >>> 32) % (len * 8)

/-- `1 << (idx & 7)`. -/
def bitMask (idx : UInt32) : UInt8 := 1 <<< (idx &&& 7).toUInt8

/-- Both bits of a hash are set. -/
def hasBits (hash : Hash) (bits : Bytes) (len : UInt32) : Bool :=
  (bits.getD (idx1 hash len / 8).toNat 0 &&& bitMask (idx1 hash len)) != 0 &&
    (bits.getD (idx2 hash len / 8).toNat 0 &&& bitMask (idx2 hash len)) != 0

def setBits (hash : Hash) (bits : Bytes) (len : UInt32) : Bytes :=
  let bits := bits.modify (idx1 hash len / 8).toNat (· ||| bitMask (idx1 hash len))
  bits.modify (idx2 hash len / 8).toNat (· ||| bitMask (idx2 hash len))

/-- The number of bits not set in a nibble. -/
def bitcount : List UInt8 := [4, 3, 3, 2, 3, 2, 2, 1, 3, 2, 2, 1, 2, 1, 1, 0]

/-- One turn of the loop of `countZeroBits`. -/
def countByte (ret : UInt32) (byte : UInt8) : UInt32 :=
  let ret := ret + (bitcount.getD (byte &&& 0xf).toNat 0).toUInt32
  ret + (bitcount.getD ((byte >>> 4) &&& 0xf).toNat 0).toUInt32

/-- The number of bits that are not set. -/
def countZeroBits (bits : Bytes) (len : UInt32) : UInt32 :=
  (bits.take len.toNat).foldl countByte 0

@[simp] theorem length_setBits (hash : Hash) (bits : Bytes) (len : UInt32) :
    (setBits hash bits len).length = bits.length := by
  simp only [setBits, List.length_modify]

/-! ## Filters -/

namespace BloomFilter

variable {mByte : Nat}

/-- The constructor, which clears the array. -/
def empty : BloomFilter mByte := ⟨List.replicate mByte 0, List.length_replicate⟩

def clear (_filter : BloomFilter mByte) : BloomFilter mByte := empty

def findHash (filter : BloomFilter mByte) (hash : Hash) : Bool :=
  hasBits hash filter.bits (UInt32.ofNat mByte)

def insertHash (filter : BloomFilter mByte) (hash : Hash) : BloomFilter mByte where
  bits := setBits hash filter.bits (UInt32.ofNat mByte)
  length := by rw [length_setBits, filter.length]

def merge (filter filterToMerge : BloomFilter mByte) : BloomFilter mByte where
  bits := List.zipWith (· ||| ·) filter.bits filterToMerge.bits
  length := by rw [List.length_zipWith, filter.length, filterToMerge.length, Nat.min_self]

end BloomFilter

/-! ## Positions of a hash -/

/-- The positions that stand for a hash: its lowest 32 bits and the next 32, reduced to the size of
the filter. -/
def hashPositions (mByte : Nat) (hash : Hash) : Finset Nat :=
  {hash.val % 2 ^ 32 % (8 * mByte), hash.val / 2 ^ 32 % 2 ^ 32 % (8 * mByte)}

section Positions

variable {mByte : Nat} (hpos : 1 ≤ mByte) (hle : mByte ≤ 2 ^ 28)

include hle in
theorem toNat_ofNat_mul_eight : (UInt32.ofNat mByte * 8).toNat = 8 * mByte := by
  have hlt : mByte < 2 ^ 32 := by omega
  have height : (8 : UInt32).toNat = 8 := rfl
  rw [UInt32.toNat_mul, UInt32.toNat_ofNat', Nat.mod_eq_of_lt hlt, height,
    Nat.mod_eq_of_lt (by omega), Nat.mul_comm]

include hle in
theorem toNat_idx1 (hash : Hash) :
    (idx1 hash (UInt32.ofNat mByte)).toNat = hash.val % 2 ^ 32 % (8 * mByte) := by
  rw [idx1, UInt32.toNat_mod, UInt32.toNat_ofNat', toNat_ofNat_mul_eight hle]

include hle in
theorem toNat_idx2 (hash : Hash) :
    (idx2 hash (UInt32.ofNat mByte)).toNat = hash.val / 2 ^ 32 % 2 ^ 32 % (8 * mByte) := by
  rw [idx2, UInt32.toNat_mod, UInt32.toNat_ofNat', toNat_ofNat_mul_eight hle,
    Nat.shiftRight_eq_div_pow]

theorem bitMask_eq (idx : UInt32) : bitMask idx = UInt8.ofNat (2 ^ (idx.toNat % 8)) := by
  have hand : (idx &&& 7).toNat = idx.toNat % 8 := by
    rw [UInt32.toNat_and]
    exact Nat.and_two_pow_sub_one_eq_mod idx.toNat 3
  have hlt : idx.toNat % 8 < 8 := Nat.mod_lt _ (by decide)
  have hpow : 2 ^ (idx.toNat % 8) < 256 := Nat.pow_lt_pow_right (by decide) hlt
  apply UInt8.toNat_inj.1
  rw [bitMask, UInt8.toNat_shiftLeft, UInt32.toNat_toUInt8, hand, UInt8.toNat_ofNat',
    Nat.mod_eq_of_lt (by omega : idx.toNat % 8 < 2 ^ 8), Nat.mod_eq_of_lt hlt, UInt8.toNat_one,
    Nat.one_shiftLeft]

theorem toNat_div_eight (idx : UInt32) : (idx / 8).toNat = idx.toNat / 8 := UInt32.toNat_div idx 8

theorem and_bitMask_ne_zero (bits : Bytes) (idx : UInt32) :
    bits.getD (idx / 8).toNat 0 &&& bitMask idx ≠ 0 ↔ idx.toNat ∈ positions bits := by
  have hlt : idx.toNat % 8 < 8 := Nat.mod_lt _ (by decide)
  rw [bitMask_eq, toNat_div_eight, and_two_pow_ne_zero hlt, mem_positions_iff_bitAt, bitAt]

theorem positions_or_bitMask {bits : Bytes} {idx : UInt32} (h : idx.toNat < 8 * bits.length) :
    positions (bits.modify (idx / 8).toNat (· ||| bitMask idx)) =
      insert idx.toNat (positions bits) := by
  rw [toNat_div_eight, bitMask_eq]
  exact positions_modify h

include hle in
theorem hasBits_iff (hash : Hash) (bits : Bytes) :
    hasBits hash bits (UInt32.ofNat mByte) ↔ hashPositions mByte hash ⊆ positions bits := by
  rw [hasBits, Bool.and_eq_true, bne_iff_ne, bne_iff_ne, and_bitMask_ne_zero, and_bitMask_ne_zero,
    toNat_idx1 hle, toNat_idx2 hle, hashPositions, Finset.insert_subset_iff,
    Finset.singleton_subset_iff]

include hpos hle in
theorem positions_setBits (hash : Hash) {bits : Bytes} (hlength : bits.length = mByte) :
    positions (setBits hash bits (UInt32.ofNat mByte)) =
      hashPositions mByte hash ∪ positions bits := by
  have hlt1 : (idx1 hash (UInt32.ofNat mByte)).toNat < 8 * bits.length := by
    rw [toNat_idx1 hle, hlength]
    exact Nat.mod_lt _ (by omega)
  have hlt2 : (idx2 hash (UInt32.ofNat mByte)).toNat < 8 * bits.length := by
    rw [toNat_idx2 hle, hlength]
    exact Nat.mod_lt _ (by omega)
  rw [setBits, positions_or_bitMask (by rwa [List.length_modify]), positions_or_bitMask hlt1,
    toNat_idx1 hle, toNat_idx2 hle, hashPositions, Finset.insert_comm, Finset.insert_union,
    Finset.singleton_union]

end Positions

/-! ## Counting -/

/-- **The table**: the two entries of a byte are the number of its zero bits. -/
theorem bitcount_byte (byte : UInt8) :
    (bitcount.getD (byte &&& 0xf).toNat 0).toNat +
      (bitcount.getD ((byte >>> 4) &&& 0xf).toNat 0).toNat +
      Nat.count (fun j => byte.toNat.testBit j) 8 = 8 := by
  have htable : ∀ n < 256, (bitcount.getD (UInt8.ofNat n &&& 0xf).toNat 0).toNat +
      (bitcount.getD ((UInt8.ofNat n >>> 4) &&& 0xf).toNat 0).toNat +
      Nat.count (fun j => (UInt8.ofNat n).toNat.testBit j) 8 = 8 := by
    decide +kernel
  have hbyte := htable byte.toNat byte.toNat_lt
  rwa [UInt8.ofNat_toNat] at hbyte

theorem toNat_countByte (ret : UInt32) (byte : UInt8) (h : ret.toNat + 8 < 2 ^ 32) :
    (countByte ret byte).toNat + Nat.count (fun j => byte.toNat.testBit j) 8 = ret.toNat + 8 := by
  have htable := bitcount_byte byte
  rw [countByte, UInt32.toNat_add, UInt32.toNat_add, UInt8.toNat_toUInt32, UInt8.toNat_toUInt32,
    Nat.mod_eq_of_lt (by omega), Nat.mod_eq_of_lt (by omega)]
  omega

/-- The loop counts the zero bits of the bytes it has passed. -/
theorem toNat_foldl_countByte (bits : Bytes) (ret : UInt32)
    (h : ret.toNat + 8 * bits.length < 2 ^ 32) :
    (bits.foldl countByte ret).toNat + (positions bits).card = ret.toNat + 8 * bits.length := by
  rw [card_positions]
  induction bits generalizing ret with
  | nil => rfl
  | cons byte bits ih =>
    rw [List.length_cons] at h
    have hbyte := toNat_countByte ret byte (by omega)
    have hrest := ih (countByte ret byte) (by omega)
    rw [List.foldl_cons, List.map_cons, List.sum_cons, List.length_cons]
    omega

theorem toNat_countZeroBits {mByte : Nat} (hle : mByte ≤ 2 ^ 28) {bits : Bytes}
    (hlength : bits.length = mByte) :
    (countZeroBits bits (UInt32.ofNat mByte)).toNat + (positions bits).card = 8 * mByte := by
  have hlen : (UInt32.ofNat mByte).toNat = bits.length := by
    rw [UInt32.toNat_ofNat', hlength]
    exact Nat.mod_eq_of_lt (by omega)
  have hzero : (0 : UInt32).toNat = 0 := rfl
  have hcount := toNat_foldl_countByte bits 0 (by omega)
  rw [countZeroBits, hlen, List.take_length, hcount, hlength, hzero, Nat.zero_add]

/-! ## Represented sets -/

namespace BloomFilter

/-- The one bits of the filter are the positions of the hashes. -/
def Represents {mByte : Nat} (filter : BloomFilter mByte) (hashes : Finset Hash) : Prop :=
  positions filter.bits = hashes.biUnion (hashPositions mByte)

section Represents

variable {mByte : Nat} {filter other : BloomFilter mByte} {hashes others : Finset Hash}

theorem represents_empty : (empty : BloomFilter mByte).Represents ∅ :=
  positions_replicate_zero mByte

theorem represents_clear : filter.clear.Represents ∅ := represents_empty

theorem Represents.insertHash (hpos : 1 ≤ mByte) (hle : mByte ≤ 2 ^ 28)
    (h : filter.Represents hashes) (hash : Hash) :
    (filter.insertHash hash).Represents (insert hash hashes) := by
  have hset := positions_setBits hpos hle hash filter.length
  rw [Represents] at h
  rw [Represents, Finset.biUnion_insert, ← h]
  exact hset

theorem Represents.merge (h : filter.Represents hashes) (hother : other.Represents others) :
    (filter.merge other).Represents (hashes ∪ others) := by
  have hor := positions_zipWith_or (filter.length.trans other.length.symm)
  rw [Represents] at h hother
  rw [Represents, Finset.union_biUnion, ← h, ← hother]
  exact hor

theorem Represents.bits_eq (h : filter.Represents hashes) (hother : other.Represents hashes) :
    filter.bits = other.bits :=
  eq_of_positions_eq (filter.length.trans other.length.symm) (h.trans hother.symm)

theorem Represents.findHash_of_mem (hle : mByte ≤ 2 ^ 28) (h : filter.Represents hashes)
    {hash : Hash} (hmem : hash ∈ hashes) : filter.findHash hash = true := by
  rw [findHash, hasBits_iff hle, h]
  exact Finset.subset_biUnion_of_mem (hashPositions mByte) hmem

end Represents

end BloomFilter

/-! ## Trees of operations -/

/-- How a filter came about: cleared filters, and inserts and merges on top of them. -/
inductive FilterTree (mByte : Nat) where
  | clear (before : BloomFilter mByte)
  | insertHash (tree : FilterTree mByte) (hash : Hash)
  | merge (tree treeToMerge : FilterTree mByte)

namespace FilterTree

variable {mByte : Nat}

def eval : FilterTree mByte → BloomFilter mByte
  | clear before => before.clear
  | insertHash tree hash => tree.eval.insertHash hash
  | merge tree treeToMerge => tree.eval.merge treeToMerge.eval

/-- The hashes inserted anywhere in the tree. -/
def hashes : FilterTree mByte → Finset Hash
  | clear _ => ∅
  | insertHash tree hash => insert hash tree.hashes
  | merge tree treeToMerge => tree.hashes ∪ treeToMerge.hashes

/-- **The tree only matters for the hashes in it.** By induction on the tree. -/
theorem represents_eval (hpos : 1 ≤ mByte) (hle : mByte ≤ 2 ^ 28) (tree : FilterTree mByte) :
    tree.eval.Represents tree.hashes := by
  induction tree with
  | clear before => exact BloomFilter.represents_clear
  | insertHash tree hash ih => exact ih.insertHash hpos hle hash
  | merge tree treeToMerge ih ihToMerge => exact ih.merge ihToMerge

end FilterTree

/-- What is known about the filter at the top of a tree. -/
structure JoinsHashes (mByte : Nat) : Prop where
  /-- Order, grouping and repetition do not matter. -/
  bits_eq : ∀ tree other : FilterTree mByte, tree.hashes = other.hashes →
    tree.eval.bits = other.eval.bits
  /-- No hash is missed. -/
  findHash : ∀ tree : FilterTree mByte, ∀ hash ∈ tree.hashes, tree.eval.findHash hash = true
  /-- The bits that are set are the positions of the hashes. -/
  positions_eq : ∀ tree : FilterTree mByte,
    positions tree.eval.bits = tree.hashes.biUnion (hashPositions mByte)
  countZeroBits_eq : ∀ tree : FilterTree mByte,
    (countZeroBits tree.eval.bits (UInt32.ofNat mByte)).toNat + (positions tree.eval.bits).card =
      8 * mByte

/-- **Active-peer gossip is a join.** -/
theorem filterTree_joinsHashes {mByte : Nat} (hpos : 1 ≤ mByte) (hle : mByte ≤ 2 ^ 28) :
    JoinsHashes mByte where
  bits_eq tree other h := by
    have hother := other.represents_eval hpos hle
    rw [← h] at hother
    exact (tree.represents_eval hpos hle).bits_eq hother
  findHash tree hash hmem := (tree.represents_eval hpos hle).findHash_of_mem hle hmem
  positions_eq tree := tree.represents_eval hpos hle
  countZeroBits_eq tree := toNat_countZeroBits hle tree.eval.length

/-- The filters that peers send each other have 8192 bytes. -/
theorem activePeersFilter_joinsHashes : 1 ≤ 8192 ∧ 8192 ≤ 2 ^ 28 ∧ JoinsHashes 8192 :=
  ⟨by decide, by decide, filterTree_joinsHashes (by decide) (by decide)⟩

/-- The hashes are below `2 ^ 32`, so they share their second position, bit 0. -/
example :
    let tree : FilterTree 4 := .merge (.insertHash (.insertHash (.clear .empty) 123) 456)
      (.insertHash (.clear .empty) 789)
    tree.eval.bits = [1, 1, 32, 8] ∧ countZeroBits tree.eval.bits 4 = 28 := by decide

end SwabianCoin
