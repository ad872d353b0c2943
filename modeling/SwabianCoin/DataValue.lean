import SwabianCoin.HashStreamBuf
import SwabianCoin.Lib.Numeral
import SwabianCoin.Validation

/-!
# Data values

A coin is a data value: a text that begins with the highest hash of the last epoch and the key of
its creator, and whose hash lies in the area of the epoch. Hash and key end with an underscore,
which neither of them contains, so the beginning of a data value belongs to one creator and one hash
(`creator_unique`).

`MinerLocal::miningThread` puts a random number and a counter behind the beginning and hashes the
two parts one after the other. What it reports passes the checks of the validator
(`found_dataValueOk`), and the longest data value just fits.
-/

namespace SwabianCoin

open Numeral

/-! ## One creator, one hash -/

theorem separator_notMem_hashToString (hash : Hash) : separator ∉ hashToString hash :=
  separator_notMem_numeral (by decide) (le_refl 16) hash.val

theorem hashToString_injective : Function.Injective hashToString := by
  intro hash hash' h
  exact Fin.ext (numeral_injective (by decide) (le_refl 16) h)

theorem dataValueBeginning_eq (miningState : MiningState) (creator : PublicKeyPEM) :
    dataValueBeginning miningState creator =
      hashToString miningState.highestHashOfLastEpoch ++
        separator :: (creator.shortString ++ [separator]) := by
  simp only [dataValueBeginning, PublicKeyPEM.getAsShortString, separator, List.append_assoc,
    List.cons_append, List.nil_append]

/-- **A data value belongs to one creator and to one hash of the last epoch.** -/
theorem creator_unique {miningState miningState' : MiningState} {creator creator' : PublicKeyPEM}
    {dataValue : Bytes} (hkey : separator ∉ creator.shortString)
    (hkey' : separator ∉ creator'.shortString)
    (h : (dataValueBeginning miningState creator).isPrefixOf dataValue = true)
    (h' : (dataValueBeginning miningState' creator').isPrefixOf dataValue = true) :
    creator = creator' ∧
      miningState.highestHashOfLastEpoch = miningState'.highestHashOfLastEpoch := by
  obtain ⟨rest, hrest⟩ := List.isPrefixOf_iff_prefix.1 h
  obtain ⟨rest', hrest'⟩ := List.isPrefixOf_iff_prefix.1 h'
  -- the text up to the first underscore, then the text up to the second one
  rw [dataValueBeginning_eq, List.append_assoc, List.cons_append, List.append_assoc,
    List.singleton_append] at hrest hrest'
  obtain ⟨hhash, hkeys⟩ := eq_of_append_separator_eq
    (separator_notMem_hashToString miningState.highestHashOfLastEpoch)
    (separator_notMem_hashToString miningState'.highestHashOfLastEpoch) (hrest.trans hrest'.symm)
  obtain ⟨hshort, -⟩ := eq_of_append_separator_eq hkey hkey' hkeys
  exact ⟨PublicKeyPEM.shortString_injective hshort, hashToString_injective hhash⟩

/-- `FF_A_7` is a data value of the key `A`, in an epoch after one with the highest hash 255. -/
theorem short_dataValue_unique :
    (dataValueBeginning { highestHashOfLastEpoch := 255 } ⟨[65]⟩).isPrefixOf
        [70, 70, 95, 65, 95, 55] = true ∧
      ∀ (hash : Hash) (creator : PublicKeyPEM), separator ∉ creator.shortString →
        (dataValueBeginning { highestHashOfLastEpoch := hash } creator).isPrefixOf
          [70, 70, 95, 65, 95, 55] = true → creator = ⟨[65]⟩ ∧ hash = 255 := by
  have hvalue : (dataValueBeginning { highestHashOfLastEpoch := 255 } ⟨[65]⟩).isPrefixOf
      [70, 70, 95, 65, 95, 55] = true := by decide +kernel
  refine ⟨hvalue, fun hash creator hkey h => ?_⟩
  exact creator_unique hkey (by decide) h hvalue

/-! ## Mining -/

/-- `MinerLocal`: what `start` sets for the workers. -/
structure MinerLocal where
  previousEpochHighestHash : Hash
  ownerPublicKey : PublicKeyPEM
  epoch : Epoch
  maxAllowedValue : Hash
  minAllowedValue : Hash
  deriving DecidableEq

/-- The counter of a worker, a `uint1024_t`. -/
abbrev MiningCounter := BitVec 1024

/-- The random number of a worker is uniformly distributed up to this one. -/
def maxRandomValue : UInt32 := 1000000000

namespace MinerLocal

def start (previousEpochHighestHash : Hash) (ownerPublicKey : PublicKeyPEM) (epoch : Epoch) :
    MinerLocal :=
  let hashArea := getHashArea epoch
  { previousEpochHighestHash
    ownerPublicKey
    epoch
    maxAllowedValue := hashArea.1
    minAllowedValue := hashArea.2 }

variable (sha : Sha256) (miner : MinerLocal) (randomValue : UInt32)

/-- What all data values of a worker begin with. -/
def dataValuePrefix : Bytes :=
  hashToString miner.previousEpochHighestHash ++ [95] ++ miner.ownerPublicKey.getAsShortString ++
    [95] ++ numeral 10 randomValue.toNat ++ [95]

/-- The counter in upper-case hexadecimal digits. -/
def payload (value : MiningCounter) : Bytes := numeral 16 value.toNat

/-- One round of `miningThread`: the call of `found_value_callback_`, if there is one. The hash goes
on from a copy of the one that has taken the beginning. -/
def mineValue (value : MiningCounter) : Option (Epoch × Bytes) :=
  let common := sha.update sha.init (miner.dataValuePrefix randomValue)
  let cycle := sha.update common (payload value)
  let hash := hashFromArray (sha.final cycle)
  if miner.minAllowedValue ≤ hash ∧ hash ≤ miner.maxAllowedValue then
    some (miner.epoch, miner.dataValuePrefix randomValue ++ payload value)
  else none

/-- The calls of `found_value_callback_` in some rounds of `miningThread`, from a value of the
counter on. -/
def miningThread : Nat → MiningCounter → List (Epoch × Bytes)
  | 0, _ => []
  | rounds + 1, value =>
    (miner.mineValue sha randomValue value).toList ++ miningThread rounds (value + 1)

variable {sha miner randomValue}

/-! ## What is found is valid -/

theorem mineValue_eq_some (hcat : sha.Concatenates) {value : MiningCounter}
    {call : Epoch × Bytes} (h : miner.mineValue sha randomValue value = some call) :
    call = (miner.epoch, miner.dataValuePrefix randomValue ++ payload value) ∧
      miner.minAllowedValue ≤ sha.calcHash call.2 ∧
      sha.calcHash call.2 ≤ miner.maxAllowedValue := by
  have hinit : sha.Absorbed sha.init [] := Digest.absorbed_init
  have habsorbed := hinit.update hcat (miner.dataValuePrefix randomValue)
  simp only [mineValue, habsorbed.final_update, List.nil_append] at h
  split_ifs at h with harea
  cases h
  exact ⟨rfl, harea⟩

theorem exists_mineValue_of_mem {rounds : Nat} {value : MiningCounter} {call : Epoch × Bytes}
    (h : call ∈ miner.miningThread sha randomValue rounds value) :
    ∃ value, miner.mineValue sha randomValue value = some call := by
  induction rounds generalizing value with
  | zero => exact absurd h List.not_mem_nil
  | succ rounds ih =>
    rcases List.mem_append.1 h with hnow | hlater
    · exact ⟨value, Option.mem_toList.1 hnow⟩
    · exact ih hlater

theorem length_dataValuePrefix_le (hrandom : randomValue ≤ maxRandomValue) :
    (miner.dataValuePrefix randomValue).length ≤
      77 + miner.ownerPublicKey.shortString.length := by
  have hhash : (hashToString miner.previousEpochHighestHash).length ≤ 64 :=
    length_numeral_le (by decide) miner.previousEpochHighestHash.isLt
  have hnumber : (numeral 10 randomValue.toNat).length ≤ 10 := by
    apply length_numeral_le (by decide)
    have hle : randomValue.toNat ≤ 1000000000 := UInt32.le_iff_toNat_le.1 hrandom
    omega
  simp only [dataValuePrefix, List.length_append, List.length_singleton,
    PublicKeyPEM.getAsShortString]
  omega

theorem length_payload_le (value : MiningCounter) : (payload value).length ≤ 256 := by
  apply length_numeral_le (by decide)
  have hlt := value.isLt
  rwa [show (16 : Nat) ^ 256 = 2 ^ 1024 by decide +kernel]

theorem beginning_dataValuePrefix (miner : MinerLocal) (randomValue : UInt32)
    (payload : Bytes) {miningState : MiningState}
    (hhash : miningState.highestHashOfLastEpoch = miner.previousEpochHighestHash) :
    (dataValueBeginning miningState miner.ownerPublicKey).isPrefixOf
      (miner.dataValuePrefix randomValue ++ payload) = true := by
  rw [List.isPrefixOf_iff_prefix]
  refine ⟨numeral 10 randomValue.toNat ++ [95] ++ payload, ?_⟩
  simp only [dataValueBeginning, dataValuePrefix, hhash, List.append_assoc]

end MinerLocal

/-- **Miner and validator agree.** Whatever `miningThread` reports passes the checks of the data
value, for a creation of the owner on a chain in that epoch with that hash. -/
theorem found_dataValueOk (sha : Sha256) (hcat : sha.Concatenates) (crypto : CryptoHelper)
    (previousEpochHighestHash : Hash) (epoch : Epoch) (owner : PublicKeyPEM)
    (howner : owner.getAsShortString.length ≤ 691) (randomValue : UInt32)
    (hrandom : randomValue ≤ maxRandomValue) (rounds : Nat) (value : MiningCounter) :
    ∀ call ∈ (MinerLocal.start previousEpochHighestHash owner epoch).miningThread sha randomValue
        rounds value,
      call.1 = epoch ∧
      ∀ (bc : Blockchain) (subBlock : CreationSubBlock), bc.getMiningState.epoch = epoch →
        bc.getMiningState.highestHashOfLastEpoch = previousEpochHighestHash →
        subBlock.creator = owner → subBlock.dataValue = call.2 →
        DataValueOk (crypto.over sha) bc.getMiningState (getHashArea bc.getMiningState.epoch)
          subBlock := by
  intro call hcall
  obtain ⟨value, hvalue⟩ := MinerLocal.exists_mineValue_of_mem hcall
  obtain ⟨hdata, habove, hbelow⟩ := MinerLocal.mineValue_eq_some hcat hvalue
  have hlength : ((MinerLocal.start previousEpochHighestHash owner epoch).dataValuePrefix
      randomValue).length ≤ 77 + owner.getAsShortString.length :=
    MinerLocal.length_dataValuePrefix_le hrandom
  have hpayload := MinerLocal.length_payload_le value
  refine ⟨congrArg Prod.fst hdata, fun bc subBlock hepoch hhash hcreator hsame => ?_⟩
  constructor
  · rw [hsame, hdata, List.length_append, show maxDataValueLength.toNat = 1024 from rfl]
    omega
  · rw [hcreator, hsame, hdata]
    exact MinerLocal.beginning_dataValuePrefix
      (MinerLocal.start previousEpochHighestHash owner epoch) randomValue _ hhash
  · rw [hepoch, hsame]
    exact habove
  · rw [hepoch, hsame]
    exact hbelow

/-- The first two rounds for the key `A` at the beginning both find something, and what they find
makes a valid data value. -/
theorem first_rounds_agree :
    (MinerLocal.start 0 ⟨[65]⟩ 0).miningThread Sample.sha 7 2 0 =
        [(0, [48, 95, 65, 95, 55, 95, 48]), (0, [48, 95, 65, 95, 55, 95, 49])] ∧
      DataValueOk (CryptoHelper.sample.over Sample.sha) {} (getHashArea 0)
        { dataValue := [48, 95, 65, 95, 55, 95, 49], creator := ⟨[65]⟩ } := by
  have hfound : (MinerLocal.start 0 ⟨[65]⟩ 0).miningThread Sample.sha 7 2 0 =
      [(0, [48, 95, 65, 95, 55, 95, 48]), (0, [48, 95, 65, 95, 55, 95, 49])] := by decide +kernel
  refine ⟨hfound, ?_⟩
  exact (found_dataValueOk Sample.sha Sample.sha_concatenates .sample 0 0 ⟨[65]⟩ (by decide) 7
    (by decide) 2 0 (0, [48, 95, 65, 95, 55, 95, 49]) (by rw [hfound]; simp)).2 {} _ rfl rfl rfl rfl

end SwabianCoin
