import SwabianCoin.Lib.Digest
import SwabianCoin.CryptoHelper

/-!
# Hashing a stream

`HashStreamBuf` is the stream buffer blocks are serialised into when they are hashed. It collects
bytes and hands them to SHA-256 when it is full. The put area leaves out the last byte of the
buffer, and `overflow` uses that byte for the one that did not fit.

What OpenSSL does is a parameter, a `Digest`. An access beyond the buffer is undefined, and the
result is `none` then. This never happens while the length of the buffer fits into the `int` of
`flushBuffer`, and then every hash is the one of the bytes written since the last hash
(`streamsHash_iff`).
-/

namespace SwabianCoin

/-! ## SHA-256 -/

/-- `SHA256_Init`, `SHA256_Update` and `SHA256_Final`. -/
abbrev Sha256 := Digest UInt8 (Vector UInt8 32)

/-- `hash_helper::fromArray`. -/
def hashFromArray (array : Vector UInt8 32) : Hash :=
  array.toList.foldl (fun ret byte => ret * 256 + Fin.ofNat (2 ^ 256) byte.toNat) 0

/-- `hash_helper::toArray`. -/
def hashToArray (hash : Hash) : Vector UInt8 32 :=
  Vector.ofFn fun i => UInt8.ofNat (hash.val / 2 ^ (8 * (31 - i.val)))

/-- `CryptoHelper::calcHash` for a string. -/
def Sha256.calcHash (sha : Sha256) (data : Bytes) : Hash := hashFromArray (sha.oneShot data)

/-- The operations on keys, with this hash. -/
def CryptoHelper.over (crypto : CryptoHelper) (sha : Sha256) : CryptoHelper :=
  { crypto with calcHash := sha.calcHash }

/-! ## The buffer -/

/-- The put area and the digest of what has left it. -/
structure HashStreamBuf (sha : Sha256) where
  buffer : Bytes
  /-- `pptr()`, from the beginning of the buffer. -/
  pptr : Nat
  sha256 : sha.Context

namespace HashStreamBuf

variable {sha : Sha256}

/-- The constructor. The length of the buffer is a 32-bit sum, and an empty buffer has no front. -/
def construct (sha : Sha256) (bufferSize : UInt32) : Option (HashStreamBuf sha) :=
  if bufferSize + 1 = 0 then none
  else
    some
      { buffer := List.replicate (bufferSize + 1).toNat 0
        pptr := 0
        sha256 := sha.init }

/-- `epptr()`: the last byte is not part of the put area. -/
def epptr (buf : HashStreamBuf sha) : Nat := buf.buffer.length - 1

/-- Store a byte at `pptr()` and go on by one. -/
def store (buf : HashStreamBuf sha) (c : UInt8) : Option (HashStreamBuf sha) :=
  if buf.pptr < buf.buffer.length then
    some { buf with buffer := buf.buffer.set buf.pptr c, pptr := buf.pptr + 1 }
  else none

/-- The number of bytes is an `int`. A negative one would be a length far beyond the buffer. -/
def flushBuffer (buf : HashStreamBuf sha) : Option (HashStreamBuf sha × Bool) :=
  let num := (Int32.ofNat buf.pptr).toInt
  if num < 0 then none
  else
    some
      ({ buf with
          sha256 := sha.update buf.sha256 (buf.buffer.take num.toNat)
          pptr := buf.pptr - num.toNat },
        num != 0)

/-- `overflow`, with `none` for `eof`. The answer is whether the byte was taken. -/
def overflow (buf : HashStreamBuf sha) : Option UInt8 → Option (HashStreamBuf sha × Bool)
  | some c => do
    let buf ← buf.store c
    buf.flushBuffer
  | none => some (buf, false)

/-- `sync`. The answer is whether it is `0`. -/
def sync (buf : HashStreamBuf sha) : Option (HashStreamBuf sha × Bool) := buf.flushBuffer

def digestHash (buf : HashStreamBuf sha) : Option (HashStreamBuf sha × Hash) := do
  let (buf, _) ← buf.flushBuffer
  some ({ buf with sha256 := sha.init }, hashFromArray (sha.final buf.sha256))

/-- `std::streambuf::sputc`: into the put area, or to `overflow` if it is full. -/
def sputc (buf : HashStreamBuf sha) (c : UInt8) : Option (HashStreamBuf sha × Bool) :=
  if buf.pptr < buf.epptr then do
    let buf ← buf.store c
    some (buf, true)
  else buf.overflow (some c)

/-- `std::streambuf::sputn`, as if by repeated calls of `sputc`, until one of them fails. -/
def sputn (buf : HashStreamBuf sha) : Bytes → Option (HashStreamBuf sha)
  | [] => some buf
  | c :: rest => do
    let (buf, taken) ← buf.sputc c
    if taken then buf.sputn rest else some buf

/-! ## Runs -/

end HashStreamBuf

/-- A call of a member function. -/
inductive StreamCall where
  | sputc (c : UInt8)
  | sputn (data : Bytes)
  | sync
  | digestHash
  deriving DecidableEq

namespace HashStreamBuf

variable {sha : Sha256}

/-- The buffer after some calls and the hashes they have returned. -/
def run (buf : HashStreamBuf sha) : List StreamCall → Option (HashStreamBuf sha × List Hash)
  | [] => some (buf, [])
  | .sputc c :: calls => do
    let (buf, _) ← buf.sputc c
    buf.run calls
  | .sputn data :: calls => do
    let buf ← buf.sputn data
    buf.run calls
  | .sync :: calls => do
    let (buf, _) ← buf.sync
    buf.run calls
  | .digestHash :: calls => do
    let (buf, hash) ← buf.digestHash
    let (buf, hashes) ← buf.run calls
    some (buf, hash :: hashes)

/-- What the calls should return: the hash of what was written since the last one, where `written`
has been written before. -/
def hashesOf (sha : Sha256) (written : Bytes) : List StreamCall → List Hash
  | [] => []
  | .sputc c :: calls => hashesOf sha (written ++ [c]) calls
  | .sputn data :: calls => hashesOf sha (written ++ data) calls
  | .sync :: calls => hashesOf sha written calls
  | .digestHash :: calls => sha.calcHash written :: hashesOf sha [] calls

/-- A new buffer survives the calls and returns the right hashes. -/
def StreamsHash (sha : Sha256) (bufferSize : UInt32) (calls : List StreamCall) : Prop :=
  ∃ first last, construct sha bufferSize = some first ∧
    first.run calls = some (last, hashesOf sha [] calls)

/-! ## What the buffer holds -/

/-- The bytes `written` since the last hash have been hashed or are still in the buffer. -/
structure Holds (size : Nat) (buf : HashStreamBuf sha) (written : Bytes) : Prop where
  length : buf.buffer.length = size
  inside : buf.pptr ≤ size
  hashed : ∃ before, sha.Absorbed buf.sha256 before ∧
    written = before ++ buf.buffer.take buf.pptr

/-- Between two calls there is room for a byte. -/
structure Open (size : Nat) (buf : HashStreamBuf sha) (written : Bytes) : Prop
    extends Holds size buf written where
  room : buf.pptr < size

theorem take_set_succ {α : Type} {data : List α} {i : Nat} (h : i < data.length) (a : α) :
    (data.set i a).take (i + 1) = data.take i ++ [a] := by
  rw [List.take_add_one, List.take_set_of_le (le_refl i), List.getElem?_set_self h]
  rfl

variable {size : Nat} {buf : HashStreamBuf sha} {written : Bytes}

theorem Open.store (h : Open size buf written) (c : UInt8) :
    ∃ buf', buf.store c = some buf' ∧ buf'.pptr = buf.pptr + 1 ∧
      Holds size buf' (written ++ [c]) := by
  have hroom : buf.pptr < buf.buffer.length := h.length.symm ▸ h.room
  refine ⟨_, if_pos hroom, rfl, ?_, h.room, ?_⟩
  · rw [List.length_set]
    exact h.length
  · obtain ⟨before, habsorbed, hwritten⟩ := h.hashed
    refine ⟨before, habsorbed, ?_⟩
    rw [take_set_succ hroom, ← List.append_assoc, ← hwritten]

/-- As long as the number of bytes is an `int`, they are all hashed. -/
theorem flushBuffer_of_lt (h : buf.pptr < 2 ^ 31) :
    buf.flushBuffer = some
      ({ buf with sha256 := sha.update buf.sha256 (buf.buffer.take buf.pptr), pptr := 0 },
        buf.pptr != 0) := by
  have hnum : (Int32.ofNat buf.pptr).toInt = (buf.pptr : Int) := Int32.toInt_ofNat_of_lt h
  have hnonneg : ¬ (buf.pptr : Int) < 0 := by omega
  have hzero : ((buf.pptr : Int) != 0) = (buf.pptr != 0) := by
    rw [Bool.eq_iff_iff, bne_iff_ne, bne_iff_ne]
    omega
  simp only [flushBuffer, hnum, if_neg hnonneg, Int.toNat_natCast, Nat.sub_self, hzero]

/-- Otherwise the number is negative. -/
theorem flushBuffer_of_ge (h : 2 ^ 31 ≤ buf.pptr) (hlt : buf.pptr < 2 ^ 32) :
    buf.flushBuffer = none := by
  have hneg : (Int32.ofNat buf.pptr).toInt < 0 := by
    have hsize : (Int32.size : Int) = 2 ^ 32 := rfl
    rw [Int32.toInt_ofNat', Int.bmod_eq_emod, hsize]
    split_ifs <;> omega
  exact if_pos hneg

theorem Holds.flushBuffer (h : Holds size buf written) (hcat : sha.Concatenates)
    (hpos : 0 < size) (hsize : size < 2 ^ 31) :
    ∃ buf', buf.flushBuffer = some (buf', buf.pptr != 0) ∧ Open size buf' written := by
  have hinside := h.inside
  refine ⟨_, flushBuffer_of_lt (by omega), ⟨⟨h.length, Nat.zero_le _, ?_⟩, hpos⟩⟩
  obtain ⟨before, habsorbed, hwritten⟩ := h.hashed
  refine ⟨written, ?_, (List.append_nil written).symm⟩
  rw [hwritten]
  exact habsorbed.update hcat _

theorem Open.sputc (h : Open size buf written) (hcat : sha.Concatenates) (hsize : size < 2 ^ 31)
    (c : UInt8) : ∃ buf', buf.sputc c = some (buf', true) ∧ Open size buf' (written ++ [c]) := by
  obtain ⟨stored, hstore, hpptr, hholds⟩ := h.store c
  have hroom := h.room
  by_cases hput : buf.pptr < buf.epptr
  · refine ⟨stored, ?_, hholds, ?_⟩
    · simp only [HashStreamBuf.sputc, if_pos hput, hstore]
      rfl
    · rw [epptr, h.length] at hput
      omega
  · -- the byte after the put area is used, and the buffer is emptied
    obtain ⟨flushed, hflush, hopen⟩ := hholds.flushBuffer hcat (by omega) hsize
    refine ⟨flushed, ?_, hopen⟩
    have htaken : (stored.pptr != 0) = true := by
      rw [bne_iff_ne]
      omega
    simp only [HashStreamBuf.sputc, if_neg hput, HashStreamBuf.overflow, hstore]
    rw [← htaken]
    exact hflush

theorem Open.sputn (h : Open size buf written) (hcat : sha.Concatenates) (hsize : size < 2 ^ 31)
    (data : Bytes) : ∃ buf', buf.sputn data = some buf' ∧ Open size buf' (written ++ data) := by
  induction data generalizing buf written with
  | nil =>
    rw [List.append_nil]
    exact ⟨buf, rfl, h⟩
  | cons c rest ih =>
    obtain ⟨next, hsputc, hopen⟩ := h.sputc hcat hsize c
    obtain ⟨last, hsputn, hopen⟩ := ih hopen
    refine ⟨last, ?_, ?_⟩
    · simp only [HashStreamBuf.sputn, hsputc]
      exact hsputn
    · rwa [List.append_assoc] at hopen

theorem Open.digestHash (h : Open size buf written) (hsize : size < 2 ^ 31) :
    ∃ buf', buf.digestHash = some (buf', sha.calcHash written) ∧ Open size buf' [] := by
  have hroom := h.room
  obtain ⟨before, habsorbed, hwritten⟩ := h.hashed
  refine ⟨{ buf with sha256 := sha.init, pptr := 0 }, ?_,
    ⟨⟨h.length, Nat.zero_le _, [], Digest.absorbed_init, rfl⟩, Nat.zero_lt_of_lt hroom⟩⟩
  simp only [HashStreamBuf.digestHash, flushBuffer_of_lt (show buf.pptr < 2 ^ 31 by omega)]
  show some (_, hashFromArray (sha.final (sha.update _ _))) = _
  rw [habsorbed.final_update, ← hwritten]
  rfl

/-- **The hashes are those of what was written.** -/
theorem Open.run (h : Open size buf written) (hcat : sha.Concatenates) (hsize : size < 2 ^ 31)
    (calls : List StreamCall) :
    ∃ buf', buf.run calls = some (buf', hashesOf sha written calls) := by
  induction calls generalizing buf written with
  | nil => exact ⟨buf, rfl⟩
  | cons call calls ih =>
    cases call with
    | sputc c =>
      obtain ⟨next, hsputc, hopen⟩ := h.sputc hcat hsize c
      obtain ⟨last, hrun⟩ := ih hopen
      refine ⟨last, ?_⟩
      simp only [HashStreamBuf.run, hsputc]
      exact hrun
    | sputn data =>
      obtain ⟨next, hsputn, hopen⟩ := h.sputn hcat hsize data
      obtain ⟨last, hrun⟩ := ih hopen
      refine ⟨last, ?_⟩
      simp only [HashStreamBuf.run, hsputn]
      exact hrun
    | sync =>
      obtain ⟨next, hflush, hopen⟩ := h.flushBuffer hcat (Nat.zero_lt_of_lt h.room) hsize
      obtain ⟨last, hrun⟩ := ih hopen
      refine ⟨last, ?_⟩
      simp only [HashStreamBuf.run, HashStreamBuf.sync, hflush]
      exact hrun
    | digestHash =>
      obtain ⟨next, hdigest, hopen⟩ := h.digestHash hsize
      obtain ⟨last, hrun⟩ := ih hopen
      refine ⟨last, ?_⟩
      simp only [HashStreamBuf.run, hdigest]
      rw [Option.bind_eq_bind, Option.bind_some, hrun]
      rfl

/-! ## Which buffers are small enough -/

theorem toNat_add_one_pos {bufferSize : UInt32} (h : bufferSize + 1 ≠ 0) :
    0 < (bufferSize + 1).toNat := by
  rw [Nat.pos_iff_ne_zero, ne_eq, ← UInt32.toNat_zero, UInt32.toNat_inj]
  exact h

theorem construct_open {bufferSize : UInt32} (h : bufferSize + 1 ≠ 0) :
    ∃ buf, construct sha bufferSize = some buf ∧ buf.pptr = 0 ∧
      Open (bufferSize + 1).toNat buf [] :=
  ⟨_, if_neg h, rfl, ⟨List.length_replicate, Nat.zero_le _, [], Digest.absorbed_init, rfl⟩,
    toNat_add_one_pos h⟩

theorem sputn_of_fits {data : Bytes} (h : buf.pptr + data.length ≤ buf.epptr) :
    ∃ buf', buf.sputn data = some buf' ∧ buf'.pptr = buf.pptr + data.length ∧
      buf'.buffer.length = buf.buffer.length := by
  induction data generalizing buf with
  | nil => exact ⟨buf, rfl, rfl, rfl⟩
  | cons c rest ih =>
    rw [List.length_cons, epptr] at h
    have hput : buf.pptr < buf.epptr := by
      rw [epptr]
      omega
    have hstore : buf.store c = some
        { buf with buffer := buf.buffer.set buf.pptr c, pptr := buf.pptr + 1 } :=
      if_pos (by omega)
    have hrest : buf.pptr + 1 + rest.length ≤ (buf.buffer.set buf.pptr c).length - 1 := by
      rw [List.length_set]
      omega
    obtain ⟨last, hsputn, hpptr, hlength⟩ := @ih
      { buf with buffer := buf.buffer.set buf.pptr c, pptr := buf.pptr + 1 } hrest
    refine ⟨last, ?_, ?_, ?_⟩
    · simp only [HashStreamBuf.sputn, HashStreamBuf.sputc, if_pos hput, hstore]
      exact hsputn
    · rw [hpptr, List.length_cons]
      exact Nat.add_right_comm buf.pptr 1 rest.length
    · rw [hlength, List.length_set]

/-- With more than `2 ^ 31 - 1` bytes in the buffer, it cannot be emptied any more. -/
theorem run_of_full (hpptr : buf.pptr = 2 ^ 31 - 1) (hlength : 2 ^ 31 ≤ buf.buffer.length)
    (c : UInt8) : buf.run [.sputc c, .sync] = none := by
  have hstore : buf.store c = some
      { buf with buffer := buf.buffer.set buf.pptr c, pptr := buf.pptr + 1 } :=
    if_pos (by omega)
  have hflush : ({ buf with buffer := buf.buffer.set buf.pptr c, pptr := buf.pptr + 1 } :
      HashStreamBuf sha).flushBuffer = none :=
    flushBuffer_of_ge (show 2 ^ 31 ≤ buf.pptr + 1 by omega) (show buf.pptr + 1 < 2 ^ 32 by omega)
  by_cases hput : buf.pptr < buf.epptr
  · simp only [HashStreamBuf.run, HashStreamBuf.sputc, if_pos hput, hstore, HashStreamBuf.sync]
    simp only [Option.bind_eq_bind, Option.bind_some, hflush]
    rfl
  · simp only [HashStreamBuf.run, HashStreamBuf.sputc, if_neg hput, HashStreamBuf.overflow, hstore]
    simp only [Option.bind_eq_bind, Option.bind_some, hflush]
    rfl

/-- Calls that a large buffer does not survive: fill it up to the last number that is an `int`. -/
def fillCalls : List StreamCall := [.sputn (List.replicate (2 ^ 31 - 1) 0), .sputc 0, .sync]

theorem run_fillCalls (hpptr : buf.pptr = 0) (hlength : 2 ^ 31 ≤ buf.buffer.length) :
    buf.run fillCalls = none := by
  have hfits : buf.pptr + (List.replicate (2 ^ 31 - 1) (0 : UInt8)).length ≤ buf.epptr := by
    rw [List.length_replicate, epptr]
    omega
  obtain ⟨filled, hsputn, hfilled, hlength'⟩ := sputn_of_fits hfits
  rw [List.length_replicate, hpptr, Nat.zero_add] at hfilled
  have hfull := run_of_full hfilled (hlength'.symm ▸ hlength) 0
  simp only [fillCalls, HashStreamBuf.run, hsputn]
  exact hfull

theorem streamsHash_of_lt (hcat : sha.Concatenates) {bufferSize : UInt32}
    (hsmall : bufferSize.toNat < 2 ^ 31 - 1) (calls : List StreamCall) :
    StreamsHash sha bufferSize calls := by
  have hsize : (bufferSize + 1).toNat = bufferSize.toNat + 1 := by
    rw [UInt32.toNat_add, UInt32.toNat_one]
    omega
  have hne : bufferSize + 1 ≠ 0 := by
    intro hzero
    rw [hzero, UInt32.toNat_zero] at hsize
    omega
  obtain ⟨first, hfirst, -, hopen⟩ := @construct_open sha bufferSize hne
  obtain ⟨last, hrun⟩ := hopen.run hcat (by omega) calls
  exact ⟨first, last, hfirst, hrun⟩

theorem hashesOf_pieces (written : Bytes) (pieces : List Bytes) :
    hashesOf sha written (pieces.map .sputn ++ [.digestHash]) =
      [sha.calcHash (written ++ pieces.flatten)] := by
  induction pieces generalizing written with
  | nil => rw [List.flatten_nil, List.append_nil]; rfl
  | cons piece pieces ih =>
    rw [List.flatten_cons, ← List.append_assoc]
    exact ih (written ++ piece)

def defaultBufferSize : UInt32 := 8192

/-- **`fillHash`** gets the hash of the archive, in whatever pieces it is written. -/
theorem run_fillHash {β : Type} [Hashed β] (crypto : CryptoHelper) (hcat : sha.Concatenates)
    (block : β) {pieces : List Bytes} (hpieces : pieces.flatten = archive (Hashed.ser block)) :
    ∃ first last, construct sha defaultBufferSize = some first ∧
      first.run (pieces.map .sputn ++ [.digestHash]) =
        some (last, [Hashed.blockHash ((crypto.over sha).fillHash block)]) := by
  obtain ⟨first, last, hfirst, hrun⟩ := streamsHash_of_lt hcat
    (show defaultBufferSize.toNat < 2 ^ 31 - 1 by decide) (pieces.map .sputn ++ [.digestHash])
  refine ⟨first, last, hfirst, ?_⟩
  rw [hrun, hashesOf_pieces, List.nil_append, hpieces, CryptoHelper.fillHash,
    Hashed.blockHash_withBlockHash]
  rfl

/-- **Which buffers are small enough.** Whatever is written in whatever pieces, every hash is that
of the bytes written since the last one and no access goes beyond the buffer, exactly if the length
of the buffer is an `int`. -/
theorem streamsHash_iff (sha : Sha256) (hcat : sha.Concatenates) (bufferSize : UInt32) :
    (∀ calls, StreamsHash sha bufferSize calls) ↔ bufferSize.toNat < 2 ^ 31 - 1 := by
  constructor
  · intro h
    by_contra hlarge
    obtain ⟨first, last, hconstruct, hrun⟩ := h fillCalls
    have hne : bufferSize + 1 ≠ 0 := by
      intro hzero
      rw [construct, if_pos hzero] at hconstruct
      cases hconstruct
    obtain ⟨buf, hbuf, hpptr, hopen⟩ := @construct_open sha bufferSize hne
    rw [hbuf, Option.some.injEq] at hconstruct
    subst hconstruct
    have hpos := toNat_add_one_pos hne
    rw [UInt32.toNat_add, UInt32.toNat_one] at hpos
    have hlength : 2 ^ 31 ≤ buf.buffer.length := by
      rw [hopen.length, UInt32.toNat_add, UInt32.toNat_one]
      have hlt := bufferSize.toNat_lt
      omega
    rw [run_fillCalls hpptr hlength] at hrun
    cases hrun
  · intro hsmall calls
    exact streamsHash_of_lt hcat hsmall calls

end HashStreamBuf

namespace Sample

/-- The hash of `CryptoHelper.sample`, fed piece by piece. -/
def sha : Sha256 where
  Context := Bytes
  init := []
  update context piece := context ++ piece
  final context := hashToArray (CryptoHelper.sample.calcHash context)

theorem sha_concatenates : sha.Concatenates := List.append_assoc

end Sample

/-- Four bytes in two calls and through a flush, with a put area of two bytes. -/
theorem pieces_hashed :
    HashStreamBuf.StreamsHash Sample.sha 2
        [.sputn [1, 2, 3], .sync, .sputc 4, .digestHash, .digestHash] ∧
      HashStreamBuf.hashesOf Sample.sha []
          [.sputn [1, 2, 3], .sync, .sputc 4, .digestHash, .digestHash] =
        [Sample.sha.calcHash [1, 2, 3, 4], Sample.sha.calcHash []] :=
  ⟨(HashStreamBuf.streamsHash_iff Sample.sha Sample.sha_concatenates 2).2 (by decide) _, rfl⟩

/-- For the largest size, the length of the buffer wraps to zero: there is nowhere to write to. -/
theorem largest_buffer_is_empty :
    HashStreamBuf.construct Sample.sha 4294967295 = none ∧
      ¬ ∀ (sha : Sha256), sha.Concatenates → ∀ (bufferSize : UInt32) (calls : List StreamCall),
        HashStreamBuf.StreamsHash sha bufferSize calls := by
  refine ⟨rfl, fun h => ?_⟩
  obtain ⟨first, last, hfirst, -⟩ := h Sample.sha Sample.sha_concatenates 4294967295 [.sputc 0]
  cases hfirst

end SwabianCoin
