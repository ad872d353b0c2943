import SwabianCoin.Lib.Base64
import SwabianCoin.P2PConnector
import SwabianCoin.SignedOnce

/-!
# The text of a signature

A signature travels as text. `verifySignature` decodes the text and verifies the bytes; the hash of
a sub-block is computed over the text. The decoder reads every text that has the right letters: the
bits left over at the end, letters behind a padding and a missing padding are all forgotten. So
every raw signature has several texts, and whoever sees a signed payment can make a second one of
it, with another hash.

Here raw verification is the parameter (`RawCrypto`), and the way from the text to the bytes is the
repository's code.

The decoder looks at the last two letters before anything is checked, so it needs two letters, or
one that is no padding (`decodesSafely_iff`). The texts of own signatures have them
(`decode64Checked_encode64`).
-/

namespace SwabianCoin

open Base64 (pad value letter narrow widen)

namespace CryptoHelper

/-! ## Texts and bytes -/

/-- `calcDecodeLength`. The subtraction is one of `size_t`. For the empty text the source looks at
the letter before the first; here there is none. -/
def calcDecodeLength (val : Bytes) : Nat :=
  let padding :=
    if val.getLast? = some pad ∧ val.dropLast.getLast? = some pad then 2
    else if val.getLast? = some pad then 1
    else 0
  let size := val.length * 3 / 4
  if padding ≤ size then size - padding else 2 ^ 64 + size - padding

/-- `decode64`. A text that ends inside the first letter of a group makes the iterator read the
terminating zero, which is no letter. -/
def decode64 (val : Bytes) : Bytes :=
  match (val.mapM value).bind widen with
  | none => []
  | some bytes => bytes.take (calcDecodeLength val)

def encode64 (val : Bytes) : Bytes :=
  (narrow val).map letter ++ List.replicate ((3 - val.length % 3) % 3) pad

theorem decode64_of_widen {val bytes : Bytes} {sextets : List Nat}
    (hvalues : val.mapM value = some sextets) (hwiden : widen sextets = some bytes) :
    decode64 val = bytes.take (calcDecodeLength val) := by
  simp [decode64, hvalues, hwiden]

/-! ## Spellings -/

/-- The letters of some bytes, without padding. -/
def letters (raw : Bytes) : Bytes := (narrow raw).map letter

theorem length_letters (raw : Bytes) : (letters raw).length = (raw.length * 4 + 2) / 3 := by
  rw [letters, List.length_map, Base64.length_narrow]

theorem mapM_letters (raw : Bytes) : (letters raw).mapM value = some (narrow raw) :=
  Base64.mapM_value_letter (Base64.narrow_lt raw)

theorem getLast?_letters (raw : Bytes) : (letters raw).getLast? ≠ some pad := by
  intro h
  obtain ⟨sextet, hmem, hletter⟩ := List.mem_map.1 (List.mem_of_getLast? h)
  exact Base64.letter_ne_pad (Base64.narrow_lt raw sextet hmem) hletter

theorem calcDecodeLength_of_getLast? {val : Bytes} (h : val.getLast? ≠ some pad) :
    calcDecodeLength val = val.length * 3 / 4 := by
  simp [calcDecodeLength, h]

theorem calcDecodeLength_append_pad {val : Bytes} (h : val.getLast? ≠ some pad)
    (hval : val ≠ []) : calcDecodeLength (val ++ [pad]) = (val.length + 1) * 3 / 4 - 1 := by
  have hlength : 0 < val.length := List.length_pos_iff.2 hval
  have hsize : 1 ≤ (val.length + 1) * 3 / 4 := by omega
  simp [calcDecodeLength, h, hsize]

theorem calcDecodeLength_append_pad_pad {val : Bytes} (hval : 2 ≤ val.length) :
    calcDecodeLength (val ++ [pad, pad]) = (val.length + 2) * 3 / 4 - 2 := by
  have hsplit : val ++ [pad, pad] = (val ++ [pad]) ++ [pad] := by simp
  have hsize : 2 ≤ (val.length + 2) * 3 / 4 := by omega
  rw [hsplit]
  simp [calcDecodeLength, hsize]

theorem decode64_letters (raw : Bytes) : decode64 (letters raw) = raw := by
  have hwiden : widen (narrow raw) = some raw := by
    simpa using Base64.widen_narrow_replicate raw 0 (Or.inl rfl)
  have hsize : raw.length ≤ (raw.length * 4 + 2) / 3 * 3 / 4 := by omega
  rw [decode64_of_widen (mapM_letters raw) hwiden,
    calcDecodeLength_of_getLast? (getLast?_letters raw), length_letters]
  exact List.take_of_length_le hsize

theorem mapM_letters_append {raw tail : Bytes} {sextets : List Nat}
    (h : tail.mapM value = some sextets) :
    (letters raw ++ tail).mapM value = some (narrow raw ++ sextets) := by
  rw [List.mapM_append, mapM_letters, h]
  rfl

theorem decode64_encode64 (raw : Bytes) : decode64 (encode64 raw) = raw := by
  have hlength := length_letters raw
  have hcases : raw.length % 3 = 0 ∨ raw.length % 3 = 1 ∨ raw.length % 3 = 2 := by omega
  rcases hcases with hraw | hraw | hraw
  · have htext : encode64 raw = letters raw := by simp [encode64, letters, hraw]
    rw [htext, decode64_letters]
  · have htext : encode64 raw = letters raw ++ [pad, pad] := by
      simp [encode64, letters, hraw, List.replicate]
    have hwiden := Base64.widen_narrow_replicate raw 2 (by omega)
    have hsize : (raw.length * 4 + 2) / 3 + 2 = raw.length / 3 * 4 + 4 := by omega
    rw [htext, decode64_of_widen (mapM_letters_append rfl) hwiden,
      calcDecodeLength_append_pad_pad (by omega), hlength, hsize]
    exact List.take_left' (by omega)
  · have htext : encode64 raw = letters raw ++ [pad] := by
      simp [encode64, letters, hraw]
    have hwiden := Base64.widen_narrow_replicate raw 1 (by omega)
    have hne : letters raw ≠ [] := List.length_pos_iff.1 (by omega)
    have hsize : (raw.length * 4 + 2) / 3 + 1 = raw.length / 3 * 4 + 4 := by omega
    rw [htext, decode64_of_widen (mapM_letters_append rfl) hwiden,
      calcDecodeLength_append_pad (getLast?_letters raw) hne, hlength, hsize]
    exact List.take_left' (by omega)

/-- Behind whole groups of letters there may stand one more letter and a padding. -/
theorem decode64_letters_append_pad {raw : Bytes} (hraw : raw.length % 3 = 0) (sextet : Nat)
    (hsextet : sextet < 64) : decode64 (letters raw ++ [letter sextet, pad]) = raw := by
  have hlength := length_letters raw
  have hvalues : [letter sextet, pad].mapM value = some [sextet, 0] := by
    simp only [List.mapM_cons, List.mapM_nil, Base64.value_letter hsextet]
    rfl
  have hwiden : widen (narrow raw ++ [sextet, 0]) =
      some (raw ++ [UInt8.ofNat (sextet * 4 + 0 / 16)]) :=
    Base64.widen_narrow_append raw hraw [sextet, 0]
  have hsplit : letters raw ++ [letter sextet, pad] =
      (letters raw ++ [letter sextet]) ++ [pad] := by
    simp
  have hlast : (letters raw ++ [letter sextet]).getLast? ≠ some pad := by
    simpa using Base64.letter_ne_pad hsextet
  have hsize : (raw.length * 4 + 2) / 3 + 1 + 1 = raw.length / 3 * 4 + 2 := by omega
  rw [decode64_of_widen (mapM_letters_append hvalues) hwiden, hsplit,
    calcDecodeLength_append_pad hlast (by simp), List.length_append, hlength, List.length_singleton,
    hsize]
  exact List.take_left' (by omega)

theorem exists_other_text (text : Bytes) : ∃ other, other ≠ text ∧
    decode64 other = decode64 text := by
  -- two texts of the same bytes, so one of them is another one
  obtain ⟨first, second, hne, hfirst, hsecond⟩ :
      ∃ first second, first ≠ second ∧ decode64 first = decode64 text ∧
        decode64 second = decode64 text := by
    by_cases hraw : (decode64 text).length % 3 = 0
    · refine ⟨_, _, ?_, decode64_letters_append_pad hraw 0 (by decide),
        decode64_letters_append_pad hraw 1 (by decide)⟩
      simp [letter]
    · refine ⟨_, _, fun heq => ?_, decode64_letters _, decode64_encode64 _⟩
      have hpadding := congrArg List.length heq
      simp only [encode64, letters, List.length_append, List.length_replicate] at hpadding
      omega
  by_cases h : first = text
  · exact ⟨second, h ▸ hne.symm, hsecond⟩
  · exact ⟨first, h, hfirst⟩

/-! ## Hostile texts -/

/-- The letter that many places before the end. The index is a `size_t`, so for a shorter text it
comes round and lies far behind the end: an access outside of the text. -/
def letterFromEnd (val : Bytes) (back : Nat) : Option UInt8 :=
  if back ≤ val.length then val[val.length - back]? else none

/-- How `calcDecodeLength` gets at the padding, or `none` if it looks outside of the text. -/
def readPadding (val : Bytes) : Option Nat :=
  match letterFromEnd val 1 with
  | none => none
  | some last =>
    if last = pad then
      match letterFromEnd val 2 with
      | none => none
      | some before => if before = pad then some 2 else some 1
    else some 0

/-- `decode64`, or `none` if it looks outside of the text. -/
def decode64Checked (val : Bytes) : Option Bytes := (readPadding val).map fun _ => decode64 val

/-- All accesses are inside of the text, the length does not wrap, and a text of valid letters is
decoded to as many bytes. -/
structure DecodesSafely (val : Bytes) : Prop where
  inRange : readPadding val ≠ none
  noUnderflow : ∀ padding ∈ readPadding val, padding ≤ val.length * 3 / 4
  length : (∀ byte ∈ val, value byte ≠ none) → (decode64 val).length = calcDecodeLength val

/-- The text is not empty, not `=` and not `==`, and has no single letter left over after groups of
four valid ones. -/
def HasLetters (val : Bytes) : Prop :=
  val ≠ [] ∧ val ≠ [pad] ∧ val ≠ [pad, pad] ∧
    ((∀ byte ∈ val, value byte ≠ none) → val.length % 4 = 1 → val.length = 1)

theorem readPadding_singleton (a : UInt8) :
    readPadding [a] = if a = pad then none else some 0 := by
  simp [readPadding, letterFromEnd]

theorem readPadding_append (front : Bytes) (b a : UInt8) :
    readPadding (front ++ [b, a]) =
      if a = pad then if b = pad then some 2 else some 1 else some 0 := by
  simp [readPadding, letterFromEnd]

/-- The two accesses need two letters, or one that is no padding. -/
theorem text_cases (val : Bytes) :
    val = [] ∨ (∃ a, val = [a]) ∨ ∃ front b a, val = front ++ [b, a] := by
  rcases List.eq_nil_or_concat val with rfl | ⟨front, a, rfl⟩
  · exact Or.inl rfl
  · rcases List.eq_nil_or_concat front with rfl | ⟨front, b, rfl⟩
    · exact Or.inr (Or.inl ⟨a, rfl⟩)
    · exact Or.inr (Or.inr ⟨front, b, a, by simp⟩)

/-- What the accesses give is what the length is computed from. -/
theorem calcDecodeLength_of_readPadding {val : Bytes} {padding : Nat}
    (h : readPadding val = some padding) :
    calcDecodeLength val =
      if padding ≤ val.length * 3 / 4 then val.length * 3 / 4 - padding
      else 2 ^ 64 + val.length * 3 / 4 - padding := by
  rcases text_cases val with rfl | ⟨a, rfl⟩ | ⟨front, b, a, rfl⟩
  · cases h
  · rw [readPadding_singleton] at h
    split_ifs at h with ha
    cases h
    simp [calcDecodeLength, ha]
  · rw [readPadding_append] at h
    have hlast : (front ++ [b, a]).getLast? = some a := by simp
    have hbefore : (front ++ [b, a]).dropLast.getLast? = some b := by simp
    unfold calcDecodeLength
    rw [hlast, hbefore]
    split_ifs at h with ha hb <;> cases h <;> simp [ha]
    · simp [hb]
    · simp [hb]

/-- When the accesses are inside of the text, and when the length does not wrap. -/
theorem readPadding_ok_iff (val : Bytes) :
    (readPadding val ≠ none ∧ ∀ padding ∈ readPadding val, padding ≤ val.length * 3 / 4) ↔
      val ≠ [] ∧ val ≠ [pad] ∧ val ≠ [pad, pad] := by
  rcases text_cases val with rfl | ⟨a, rfl⟩ | ⟨front, b, a, rfl⟩
  · exact iff_of_false (fun h => h.1 rfl) fun h => h.1 rfl
  · rw [readPadding_singleton]
    by_cases ha : a = pad
    · simp [ha]
    · simp [ha]
  · have hone : front ++ [b, a] ≠ [pad] := by
      intro heq
      have hlength := congrArg List.length heq
      simp at hlength
    have htwo : front ++ [b, a] = [pad, pad] ↔ front = [] ∧ b = pad ∧ a = pad := by
      constructor
      · intro heq
        obtain ⟨hfront, hlast⟩ := List.append_inj' (heq.trans (List.nil_append _).symm) rfl
        cases hlast
        exact ⟨hfront, rfl, rfl⟩
      · rintro ⟨rfl, rfl, rfl⟩
        rfl
    simp only [readPadding_append, ne_eq, hone, htwo, List.append_eq_nil_iff, List.length_append,
      List.length_cons, List.length_nil]
    by_cases ha : a = pad
    · by_cases hb : b = pad
      · have hsize : 2 ≤ (front.length + 2) * 3 / 4 ↔ front ≠ [] := by
          rw [← List.length_pos_iff]
          omega
        simp [ha, hb, hsize]
      · have hsize : 1 ≤ (front.length + 2) * 3 / 4 := by omega
        simp [ha, hb, hsize]
    · simp [ha]

theorem readPadding_le_two {val : Bytes} {padding : Nat} (h : readPadding val = some padding) :
    padding ≤ 2 := by
  rcases text_cases val with rfl | ⟨a, rfl⟩ | ⟨front, b, a, rfl⟩
  · cases h
  · rw [readPadding_singleton] at h
    split_ifs at h
    cases h
    decide
  · rw [readPadding_append] at h
    split_ifs at h <;> cases h <;> decide

theorem decode64_of_length_mod {val : Bytes} (hvalid : ∀ byte ∈ val, value byte ≠ none)
    (h : val.length % 4 = 1) : decode64 val = [] := by
  obtain ⟨sextets, hsextets, hlength⟩ := Base64.exists_mapM_value hvalid
  have hnone : widen sextets = none := by rwa [Base64.widen_eq_none_iff, hlength]
  simp [decode64, hsextets, hnone]

theorem length_decode64 {val : Bytes} (hvalid : ∀ byte ∈ val, value byte ≠ none)
    (h : val.length % 4 ≠ 1) :
    (decode64 val).length = min (calcDecodeLength val) (val.length * 3 / 4) := by
  obtain ⟨sextets, hsextets, hlength⟩ := Base64.exists_mapM_value hvalid
  have hsome : widen sextets ≠ none := by rwa [ne_eq, Base64.widen_eq_none_iff, hlength]
  obtain ⟨bytes, hbytes⟩ := Option.ne_none_iff_exists'.1 hsome
  rw [decode64_of_widen hsextets hbytes, List.length_take, Base64.length_widen hbytes, hlength]

/-- **When decoding is safe.** -/
theorem decodesSafely_iff (val : Bytes) : DecodesSafely val ↔ HasLetters val := by
  constructor
  · intro h
    obtain ⟨hnil, hpad, hpads⟩ := (readPadding_ok_iff val).1 ⟨h.inRange, h.noUnderflow⟩
    refine ⟨hnil, hpad, hpads, fun hvalid hmod => ?_⟩
    obtain ⟨padding, hpadding⟩ := Option.ne_none_iff_exists'.1 h.inRange
    have hle := readPadding_le_two hpadding
    have hlength := h.length hvalid
    rw [decode64_of_length_mod hvalid hmod, calcDecodeLength_of_readPadding hpadding,
      if_pos (h.noUnderflow padding hpadding), List.length_nil] at hlength
    omega
  · rintro ⟨hnil, hpad, hpads, hmod⟩
    obtain ⟨hrange, hsize⟩ := (readPadding_ok_iff val).2 ⟨hnil, hpad, hpads⟩
    obtain ⟨padding, hpadding⟩ := Option.ne_none_iff_exists'.1 hrange
    refine ⟨hrange, hsize, fun hvalid => ?_⟩
    have hcalc := calcDecodeLength_of_readPadding hpadding
    rw [if_pos (hsize padding hpadding)] at hcalc
    by_cases hone : val.length % 4 = 1
    · rw [decode64_of_length_mod hvalid hone, hcalc, hmod hvalid hone]
      exact (Nat.zero_sub padding).symm
    · rw [length_decode64 hvalid hone, hcalc]
      exact min_eq_left (Nat.sub_le _ _)

theorem readPadding_of_two_le {val : Bytes} (h : 2 ≤ val.length) : readPadding val ≠ none := by
  rcases text_cases val with rfl | ⟨a, rfl⟩ | ⟨front, b, a, rfl⟩
  · exact absurd h (by decide)
  · exact absurd h (by simp)
  · rw [readPadding_append]
    split_ifs <;> simp

/-- **Own signatures are read back**, without looking outside of their texts. -/
theorem decode64Checked_encode64 (raw : Bytes) (h : raw ≠ []) :
    decode64Checked (encode64 raw) = some raw := by
  have hlength : 2 ≤ (encode64 raw).length := by
    have hletters := length_letters raw
    have hpos : 0 < raw.length := List.length_pos_iff.2 h
    have happend : (encode64 raw).length = (letters raw).length + (3 - raw.length % 3) % 3 := by
      simp [encode64, letters]
    omega
  obtain ⟨padding, hpadding⟩ := Option.ne_none_iff_exists'.1 (readPadding_of_two_le hlength)
  rw [decode64Checked, hpadding, Option.map_some, decode64_encode64]

/-- Four bytes, six letters and two for the padding. -/
theorem four_bytes_read_back :
    encode64 [1, 2, 254, 255] = [65, 81, 76, 43, 47, 119, 61, 61] ∧
      decode64Checked (encode64 [1, 2, 254, 255]) = some [1, 2, 254, 255] :=
  ⟨by decide +kernel, decode64Checked_encode64 _ (by decide)⟩

end CryptoHelper

open CryptoHelper (decode64 encode64)

namespace Sample

/-- A payment with an empty signature. -/
def unsignedPayment : TransactionSubBlock :=
  buildTransaction .sample (.collection mining) keyA keyB 300000 []

/-- A block with it. -/
def unsignedBlock : CollectionBlock :=
  placeBlock .sample 2 (.collection mining) { transactions := storeTransaction ∅ unsignedPayment }

end Sample

/-- A peer can send an empty signature, and `calcDecodeLength` looks before its begin. So it does
for `=`; for `==` the length wraps, and of five letters none is decoded, although there are three
bytes. -/
theorem empty_signature_misread :
    ({ callbackCollection := true } : P2PConnector).receivedMessage [1]
        (collectionMessage Sample.unsignedBlock false) =
          some (.callbackCollection [1] Sample.unsignedBlock false) ∧
      Sample.unsignedPayment ∈ Sample.unsignedBlock.transactions.values ∧
      CryptoHelper.sample.verifyHash Sample.unsignedPayment = true ∧
      CryptoHelper.readPadding Sample.unsignedPayment.signature = none ∧
      CryptoHelper.readPadding [pad] = none ∧
      CryptoHelper.calcDecodeLength [pad, pad] = 2 ^ 64 - 1 ∧
      CryptoHelper.calcDecodeLength [65, 65, 65, 65, 65] = 3 ∧
      decode64 [65, 65, 65, 65, 65] = [] ∧
      ¬ ∀ val, CryptoHelper.DecodesSafely val := by
  refine ⟨by decide +kernel, by decide +kernel, by decide +kernel, by decide +kernel, by decide,
    by decide, by decide, by decide, fun h => ?_⟩
  exact (h []).inRange (by decide)

/-! ## Payments in other words -/

/-- What the verification of a signature text takes from OpenSSL. -/
structure RawCrypto where
  /-- The SHA-256 hash of a string. -/
  calcHash : Bytes → Hash
  /-- Does the raw signature verify for these bytes and this key? -/
  verifyRaw : Bytes → Bytes → PublicKeyPEM → Bool
  /-- Can the key be read? -/
  isPublicKeyValid : PublicKeyPEM → Bool

/-- `verifySignature` decodes the text first. A key that cannot be read verifies nothing. -/
def RawCrypto.toCryptoHelper (raw : RawCrypto) : CryptoHelper where
  calcHash := raw.calcHash
  verifySignature data signature key :=
    raw.isPublicKeyValid key && raw.verifyRaw data (decode64 signature) key
  isPublicKeyValid := raw.isPublicKeyValid

/-- The transaction with another signature text, and the hash computed again. -/
def TransactionSubBlock.respell (subBlock : TransactionSubBlock) (crypto : CryptoHelper)
    (text : Signature) : TransactionSubBlock :=
  crypto.fillHash (Hashed.withBlockHash (Signed.withSignature subBlock text) 0)

/-- No other text of the same raw signature makes a payment that is accepted. -/
def OneText (raw : RawCrypto) (bc : Blockchain) (subBlock : TransactionSubBlock) : Prop :=
  ∀ text, text ≠ subBlock.signature → decode64 text = decode64 subBlock.signature →
    bc.validateTransaction raw.toCryptoHelper (subBlock.respell raw.toCryptoHelper text) = false

section Respell

variable {raw : RawCrypto} {bc : Blockchain} {subBlock : TransactionSubBlock}

/-- The signature does not cover its own text. -/
theorem signedBytes_respell (crypto : CryptoHelper) (text : Signature) :
    CryptoHelper.signedBytes (subBlock.respell crypto text) =
      CryptoHelper.signedBytes subBlock := rfl

theorem signature_respell (crypto : CryptoHelper) (text : Signature) :
    Signed.signature (subBlock.respell crypto text) = text := rfl

/-- The block that is checked against the chain keeps everything but the text and the hash. -/
theorem validateTransactionSubBlock_respell {newest : Block} {text : Signature}
    (htext : decode64 text = decode64 subBlock.signature)
    (h : validateTransactionSubBlock raw.toCryptoHelper subBlock newest = true) :
    validateTransactionSubBlock raw.toCryptoHelper (subBlock.respell raw.toCryptoHelper text)
      newest = true := by
  simp only [validateTransactionSubBlock, Bool.and_eq_true] at h ⊢
  obtain ⟨⟨⟨⟨⟨⟨hfraction, htype⟩, -⟩, hsignature⟩, howners⟩, hkey⟩, hprevious⟩ := h
  have hhash : raw.toCryptoHelper.verifyHash (subBlock.respell raw.toCryptoHelper text) = true := by
    rw [TransactionSubBlock.respell, CryptoHelper.fillHash_withBlockHash_zero]
    exact raw.toCryptoHelper.verifyHash_withBlockHash_contentHash _
  have hverified : raw.toCryptoHelper.verifyBlockSignature
      (subBlock.respell raw.toCryptoHelper text) subBlock.preOwner = true := by
    simp only [CryptoHelper.verifyBlockSignature, RawCrypto.toCryptoHelper] at hsignature ⊢
    rw [signedBytes_respell, signature_respell, htext]
    exact hsignature
  exact ⟨⟨⟨⟨⟨⟨hfraction, htype⟩, hhash⟩, hverified⟩, howners⟩, hkey⟩, hprevious⟩

/-- Every other text of the raw signature makes another payment. -/
theorem validateTransaction_respell {text : Signature}
    (htext : decode64 text = decode64 subBlock.signature)
    (h : bc.validateTransaction raw.toCryptoHelper subBlock = true) :
    bc.validateTransaction raw.toCryptoHelper (subBlock.respell raw.toCryptoHelper text) =
      true := by
  unfold Blockchain.validateTransaction at h ⊢
  cases hnewest : bc.getNewestBlock with
  | none => simp [hnewest] at h
  | some newest =>
    simp only [hnewest] at h ⊢
    exact validateTransactionSubBlock_respell htext h

end Respell

/-- **No signature has one text.** Whatever is accepted can be spelled in another way, and is
accepted again. -/
theorem not_oneText (raw : RawCrypto) (bc : Blockchain) (subBlock : TransactionSubBlock)
    (haccepted : bc.validateTransaction raw.toCryptoHelper subBlock = true) :
    ¬ OneText raw bc subBlock := by
  intro h
  obtain ⟨text, hne, htext⟩ := CryptoHelper.exists_other_text subBlock.signature
  have hrefused := h text hne htext
  rw [validateTransaction_respell htext haccepted] at hrefused
  cases hrefused

namespace Sample

/-- Raw signatures for concrete runs: a signature is the signer's key text. -/
def rawCrypto : RawCrypto where
  calcHash := CryptoHelper.sample.calcHash
  verifyRaw _ signature key := signature == key.shortString
  isPublicKeyValid := CryptoHelper.sample.isPublicKeyValid

/-- `CryptoHelper` over the raw signatures. -/
def textCrypto : CryptoHelper := rawCrypto.toCryptoHelper

/-- `keyA` mines a coin and signs with a text. -/
def textMining : CollectionBlock :=
  placeBlock textCrypto root.header.blockUid root
    { creations := storeCreation ∅
        (buildCreation textCrypto root (dataValueBeginning {} keyA) keyA
          (encode64 keyA.shortString)) }

def textChain : Blockchain :=
  (({} : Blockchain).initEmptyChain textCrypto).addBlock textCrypto textMining

/-- A payment of `keyA`, signed with the text `QQ==`. -/
def textPayment : TransactionSubBlock :=
  buildTransaction textCrypto (.collection textMining) keyA keyB 300000 (encode64 keyA.shortString)

/-- The same payment, signed with the text `QR==`. -/
def respelledPayment : TransactionSubBlock := textPayment.respell textCrypto [81, 82, pad, pad]

/-- A block with both. -/
def bothPayments : CollectionBlock :=
  placeBlock textCrypto 2 (.collection textMining)
    { transactions := storeTransaction (storeTransaction ∅ textPayment) respelledPayment }

end Sample

/-- The payment of `keyA` is accepted, so its signature has another text. -/
theorem payment_without_one_text :
    Sample.textChain.validateTransaction Sample.textCrypto Sample.textPayment = true ∧
      ¬ OneText Sample.rawCrypto Sample.textChain Sample.textPayment :=
  ⟨by decide +kernel, not_oneText _ _ _ (by decide +kernel)⟩

/-- A second text of a signature, made without the key: the payment is accepted under another hash,
and a block with both payments takes the money twice. -/
theorem payment_respelled :
    Sample.textChain.validateTransaction Sample.textCrypto Sample.textPayment = true ∧
      Sample.respelledPayment.signature ≠ Sample.textPayment.signature ∧
      decode64 Sample.respelledPayment.signature = decode64 Sample.textPayment.signature ∧
      Sample.textChain.validateTransaction Sample.textCrypto Sample.respelledPayment = true ∧
      Sample.respelledPayment.header.genericHeader.blockHash ≠
        Sample.textPayment.header.genericHeader.blockHash ∧
      Sample.textChain.Accepts Sample.textCrypto Sample.bothPayments ∧
      (Sample.textChain.addBlock Sample.textCrypto Sample.bothPayments).getBalance Sample.keyA =
        400000 ∧
      ¬ ∀ (raw : RawCrypto) (bc : Blockchain) (subBlock : TransactionSubBlock),
        bc.validateTransaction raw.toCryptoHelper subBlock = true → OneText raw bc subBlock := by
  have haccepted : Sample.textChain.validateTransaction Sample.textCrypto Sample.textPayment =
      true := by decide +kernel
  have hne : Sample.respelledPayment.signature ≠ Sample.textPayment.signature := by decide +kernel
  have hsame : decode64 Sample.respelledPayment.signature =
      decode64 Sample.textPayment.signature := by decide +kernel
  have hagain : Sample.textChain.validateTransaction Sample.textCrypto Sample.respelledPayment =
      true := by decide +kernel
  refine ⟨haccepted, hne, hsame, hagain, by decide +kernel, by decide +kernel, by decide +kernel,
    ?_⟩
  intro h
  have hrefused : Sample.textChain.validateTransaction Sample.textCrypto Sample.respelledPayment =
      false := h Sample.rawCrypto _ _ haccepted _ hne hsame
  rw [hagain] at hrefused
  cases hrefused

end SwabianCoin
