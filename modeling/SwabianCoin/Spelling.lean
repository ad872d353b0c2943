import SwabianCoin.Lib.Base64
import SwabianCoin.Lib.Search
import SwabianCoin.Conservation
import SwabianCoin.Reset
import SwabianCoin.RoundTrip

/-!
# Spellings of a key

A `PublicKeyPEM` that is built from a text has no white space, and reading its own text gives it
back (`normalisesTexts`). One that comes in a message has whatever the peer wrote, and the check of
a key is left to a reader that skips line breaks. So a wallet gets a second name as soon as a block
spells its key in another way, and the wallets are in normal form exactly as long as no block does
that (`normalForm_iff`).
-/

namespace SwabianCoin

namespace PublicKeyPEM

/-! ## Texts -/

/-- `prefix_`, the line before the key. -/
def keyPrefix : Bytes := "-----BEGIN PUBLIC KEY-----\n".toUTF8.data.toList

/-- `postfix_`, the line after the key. -/
def keyPostfix : Bytes := "\n-----END PUBLIC KEY-----".toUTF8.data.toList

/-- Blanks, tabs and line breaks are removed, one after the other. -/
def removeWhiteSpace (text : Bytes) : Bytes :=
  Search.erase 13 (Search.erase 10 (Search.erase 9 (Search.erase 32 text)))

def initFromString (publicKeyString : Bytes) : PublicKeyPEM :=
  match Search.find keyPrefix publicKeyString, Search.find keyPostfix publicKeyString with
  | some startIndex, some endIndex =>
    let startIndex := startIndex + keyPrefix.length
    if endIndex < startIndex then ⟨[]⟩
    else ⟨removeWhiteSpace ((publicKeyString.drop startIndex).take (endIndex - startIndex + 1))⟩
  | _, _ => ⟨[]⟩

def getAsFullString (key : PublicKeyPEM) : Bytes := keyPrefix ++ key.shortString ++ keyPostfix

/-- The arguments of `substr` in `initFromString`, if it is called: a position and a count. -/
def substrArguments (publicKeyString : Bytes) : Option (Nat × Nat) :=
  match Search.find keyPrefix publicKeyString, Search.find keyPostfix publicKeyString with
  | some startIndex, some endIndex =>
    let startIndex := startIndex + keyPrefix.length
    if endIndex < startIndex then none else some (startIndex, endIndex - startIndex + 1)
  | _, _ => none

theorem initFromString_eq (publicKeyString : Bytes) :
    initFromString publicKeyString =
      match substrArguments publicKeyString with
      | none => ⟨[]⟩
      | some (position, count) =>
        ⟨removeWhiteSpace ((publicKeyString.drop position).take count)⟩ := by
  unfold initFromString substrArguments
  cases Search.find keyPrefix publicKeyString with
  | none => rfl
  | some startIndex =>
    cases Search.find keyPostfix publicKeyString with
    | none => rfl
    | some endIndex =>
      dsimp only
      split_ifs <;> rfl

/-- The line after the key is not cut off. -/
theorem substrArguments_inRange {text : Bytes} {position count : Nat}
    (h : substrArguments text = some (position, count)) : position + count ≤ text.length := by
  unfold substrArguments at h
  split at h
  case _ startIndex endIndex hstart hend =>
    dsimp only at h
    split_ifs at h with horder
    cases h
    have hfits := Search.add_length_le_of_find hend
    have hpos : 0 < keyPostfix.length := by decide
    omega
  case _ => cases h

/-- Reading the text of the key again gives the key. -/
def Normal (key : PublicKeyPEM) : Prop := initFromString key.getAsFullString = key

instance : DecidablePred Normal := fun _ => inferInstanceAs (Decidable (_ = _))

/-- The short string has no blank, tab or line break. -/
def NoSpace (key : PublicKeyPEM) : Prop :=
  ∀ byte ∈ ([32, 9, 10, 13] : Bytes), byte ∉ key.shortString

instance : DecidablePred NoSpace := fun _ => List.decidableBAll _ _

theorem mem_removeWhiteSpace {byte : UInt8} {text : Bytes} :
    byte ∈ removeWhiteSpace text ↔ byte ∈ text ∧ byte ∉ ([32, 9, 10, 13] : Bytes) := by
  simp only [removeWhiteSpace, Search.mem_erase, List.mem_cons, List.not_mem_nil, or_false,
    not_or, and_assoc]

theorem removeWhiteSpace_append (text text' : Bytes) :
    removeWhiteSpace (text ++ text') = removeWhiteSpace text ++ removeWhiteSpace text' := by
  simp only [removeWhiteSpace, Search.erase_append]

theorem NoSpace.removeWhiteSpace_eq {key : PublicKeyPEM} (h : key.NoSpace) :
    removeWhiteSpace key.shortString = key.shortString := by
  rw [removeWhiteSpace, Search.erase_of_not_mem (h 32 (by decide)),
    Search.erase_of_not_mem (h 9 (by decide)), Search.erase_of_not_mem (h 10 (by decide)),
    Search.erase_of_not_mem (h 13 (by decide))]

theorem noSpace_initFromString (text : Bytes) : (initFromString text).NoSpace := by
  intro byte hbyte hmem
  unfold initFromString at hmem
  split at hmem
  · dsimp only at hmem
    split_ifs at hmem
    · exact List.not_mem_nil hmem
    · exact (mem_removeWhiteSpace.1 hmem).2 hbyte
  · exact List.not_mem_nil hmem

/-- The line after the key does not start before it ends. -/
theorem NoSpace.not_isPrefix {key : PublicKeyPEM} (h : key.NoSpace) :
    ¬ keyPostfix <+: 10 :: (key.shortString ++ keyPostfix) := by
  have hsplit : keyPostfix = 10 :: keyPostfix.tail := by decide
  intro hbegin
  rw [hsplit, List.cons_prefix_cons, ← hsplit] at hbegin
  -- the dashes and letters after the line break begin the key, or the key begins them
  rcases List.prefix_or_prefix_of_prefix hbegin.2 (List.prefix_append key.shortString _) with
    hinside | ⟨rest, hrest⟩
  · exact h 32 (by decide) (hinside.subset (by decide))
  · have hnext := hbegin.2
    rw [← hrest, List.prefix_append_right_inj, hsplit] at hnext
    cases rest with
    | nil =>
      rw [List.append_nil] at hrest
      exact h 32 (by decide) (hrest ▸ by decide)
    | cons byte rest =>
      have hbreak := (List.cons_prefix_cons.1 hnext).1
      have hmem : (10 : UInt8) ∈ keyPostfix.tail := by
        rw [← hrest, hbreak]
        exact List.mem_append_right _ (List.mem_cons_self ..)
      exact absurd hmem (by decide)

/-- The line after the key can only start with the line break before the key, or later. -/
theorem find_keyPostfix_of_find {body : Bytes}
    (h : Search.find keyPostfix (10 :: (body ++ keyPostfix)) = some (body.length + 1)) :
    Search.find keyPostfix (keyPrefix ++ body ++ keyPostfix) =
      some (keyPrefix.length + body.length) := by
  have hsplit : keyPostfix = 10 :: keyPostfix.tail := by decide
  have hline : keyPrefix = keyPrefix.dropLast ++ [10] := by decide
  have hfull : keyPrefix ++ body ++ keyPostfix =
      keyPrefix.dropLast ++ (10 :: (body ++ keyPostfix)) := by
    rw [hline, List.append_assoc, List.append_assoc, ← hline]
    rfl
  have hbegin : (10 : UInt8) ∉ keyPrefix.dropLast := by decide
  rw [hfull, hsplit, Search.find_append hbegin, ← hsplit, h, Option.map_some, hline]
  simp only [List.length_append, List.length_singleton, List.dropLast_concat]
  congr 1
  omega

theorem NoSpace.find_keyPostfix {key : PublicKeyPEM} (h : key.NoSpace) :
    Search.find keyPostfix key.getAsFullString =
      some (keyPrefix.length + key.shortString.length) := by
  have hsplit : keyPostfix = 10 :: keyPostfix.tail := by decide
  have hkey : Search.find keyPostfix (key.shortString ++ keyPostfix) =
      some key.shortString.length := by
    rw [hsplit, Search.find_append (h 10 (by decide)), Search.find_of_isPrefix (List.prefix_refl _),
      Option.map_some, Nat.zero_add]
  apply find_keyPostfix_of_find
  rw [Search.find_cons_of_not_isPrefix h.not_isPrefix, hkey, Option.map_some]

theorem initFromString_of_find {body : Bytes}
    (h : Search.find keyPostfix (keyPrefix ++ body ++ keyPostfix) =
      some (keyPrefix.length + body.length)) :
    initFromString (keyPrefix ++ body ++ keyPostfix) = ⟨removeWhiteSpace body⟩ := by
  have hbegin : Search.find keyPrefix (keyPrefix ++ body ++ keyPostfix) = some 0 := by
    apply Search.find_of_isPrefix
    rw [List.append_assoc]
    exact List.prefix_append _ _
  have hpart : ((keyPrefix ++ body ++ keyPostfix).drop keyPrefix.length).take (body.length + 1) =
      body ++ [10] := by
    have hsplit : keyPostfix = [10] ++ keyPostfix.tail := by decide
    have hfull : keyPrefix ++ body ++ keyPostfix =
        keyPrefix ++ ((body ++ [10]) ++ keyPostfix.tail) := by
      rw [List.append_assoc, List.append_assoc, ← hsplit]
    rw [hfull, List.drop_left, List.take_left' (by simp)]
  simp only [initFromString, hbegin, h, Nat.zero_add]
  rw [if_neg (by omega), Nat.add_sub_cancel_left, hpart, removeWhiteSpace_append]
  exact congrArg mk (List.append_nil _)

/-- **The keys in normal form** are those without white space. -/
theorem normal_iff (key : PublicKeyPEM) : key.Normal ↔ key.NoSpace := by
  constructor
  · intro h
    rw [← h]
    exact noSpace_initFromString _
  · intro h
    rw [Normal, getAsFullString, initFromString_of_find h.find_keyPostfix, h.removeWhiteSpace_eq]

/-! ## Reading texts -/

/-- A blank, a tab or one of the two line breaks. -/
def IsSpace (byte : UInt8) : Prop := byte ∈ ([32, 9, 10, 13] : Bytes)

instance : DecidablePred IsSpace := fun _ => inferInstanceAs (Decidable (_ ∈ _))

/-- The body of a text: letters of base64 and white space. -/
def IsBody (body : Bytes) : Prop := ∀ byte ∈ body, Base64.value byte ≠ none ∨ IsSpace byte

/-- White space is inserted into a text and removed from it, in any places. -/
inductive Respaced : Bytes → Bytes → Prop where
  | nil : Respaced [] []
  | keep {text text' : Bytes} (byte : UInt8) : Respaced text text' →
    Respaced (byte :: text) (byte :: text')
  | insert {text text' : Bytes} {byte : UInt8} : IsSpace byte → Respaced text text' →
    Respaced text (byte :: text')
  | remove {text text' : Bytes} {byte : UInt8} : IsSpace byte → Respaced text text' →
    Respaced (byte :: text) text'

/-- A text is read to a key that does not change when its own text is read, the part that is cut
out lies inside the text, and white space in the body does not matter. -/
structure NormalisesTexts : Prop where
  idempotent : ∀ text, initFromString (initFromString text).getAsFullString = initFromString text
  inRange : ∀ text position count, substrArguments text = some (position, count) →
    position ≤ text.length ∧ position + count ≤ text.length
  respaced : ∀ body body', IsBody body → Respaced body body' →
    initFromString (keyPrefix ++ body ++ keyPostfix) =
      initFromString (keyPrefix ++ body' ++ keyPostfix)

theorem removeWhiteSpace_cons_of_isSpace {byte : UInt8} (h : IsSpace byte) (text : Bytes) :
    removeWhiteSpace (byte :: text) = removeWhiteSpace text := by
  have hnone : removeWhiteSpace [byte] = [] := by
    apply List.eq_nil_iff_forall_not_mem.2
    intro other hmem
    obtain ⟨hother, hspace⟩ := mem_removeWhiteSpace.1 hmem
    rw [List.mem_singleton.1 hother] at hspace
    exact hspace h
  have hsplit := removeWhiteSpace_append [byte] text
  rw [hnone] at hsplit
  exact hsplit

namespace Respaced

variable {body body' : Bytes}

theorem removeWhiteSpace_eq (h : Respaced body body') :
    removeWhiteSpace body = removeWhiteSpace body' := by
  induction h with
  | nil => rfl
  | keep byte _ ih =>
    have hbefore := removeWhiteSpace_append [byte]
    exact (hbefore _).trans (ih ▸ (hbefore _).symm)
  | insert hspace _ ih => rw [removeWhiteSpace_cons_of_isSpace hspace, ih]
  | remove hspace _ ih => rw [removeWhiteSpace_cons_of_isSpace hspace, ih]

theorem isBody (h : Respaced body body') (hbody : IsBody body) : IsBody body' := by
  induction h with
  | nil => exact hbody
  | keep byte _ ih =>
    obtain ⟨hbyte, hrest⟩ := List.forall_mem_cons.1 hbody
    exact List.forall_mem_cons.2 ⟨hbyte, ih hrest⟩
  | insert hspace _ ih => exact List.forall_mem_cons.2 ⟨Or.inr hspace, ih hbody⟩
  | remove _ _ ih => exact ih (List.forall_mem_cons.1 hbody).2

end Respaced

/-- There is no dash in a body, so the line after the key is found behind it. -/
theorem IsBody.find_keyPostfix {body : Bytes} (h : IsBody body) :
    Search.find keyPostfix (keyPrefix ++ body ++ keyPostfix) =
      some (keyPrefix.length + body.length) := by
  have hfooter : keyPostfix = 10 :: 45 :: keyPostfix.tail.tail := by decide
  have hdash : (45 : UInt8) ∉ body := by
    intro hmem
    rcases h 45 hmem with hletter | hspace
    · exact hletter (by decide)
    · exact absurd hspace (by decide)
  apply find_keyPostfix_of_find
  rw [← List.cons_append, Search.find_append_of_not_isPrefix,
    Search.find_of_isPrefix (List.prefix_refl _), Option.map_some, Nat.zero_add, List.length_cons]
  -- a line break in the body is followed by the body or by a second line break
  intro byte part hpart hbegin
  rw [hfooter, List.cons_prefix_cons, ← hfooter] at hbegin
  have hbody : part <:+ body := by
    rcases List.suffix_cons_iff.1 hpart with heq | hlater
    · rw [(List.cons.inj heq).2]
    · exact (List.suffix_cons byte part).trans hlater
  cases part with
  | nil => exact absurd hbegin.2 (by decide)
  | cons next rest =>
    have hnext := (List.cons_prefix_cons.1 hbegin.2).1
    exact hdash (hbody.subset (hnext ▸ List.mem_cons_self ..))

/-- **Keys are normalised.** -/
theorem normalisesTexts : NormalisesTexts where
  idempotent text := (normal_iff _).2 (noSpace_initFromString text)
  inRange text position count h := by
    have hfits := substrArguments_inRange h
    exact ⟨le_trans (Nat.le_add_right position count) hfits, hfits⟩
  respaced body body' hbody hspaces := by
    have hbody' := hspaces.isBody hbody
    rw [initFromString_of_find hbody.find_keyPostfix,
      initFromString_of_find hbody'.find_keyPostfix, hspaces.removeWhiteSpace_eq]

end PublicKeyPEM

open PublicKeyPEM

/-! ## Wallets -/

/-- Every wallet has a key in normal form, and no two wallets are spellings of one key. -/
structure NormalForm (bc : Blockchain) : Prop where
  normal : ∀ key ∈ bc.currentBaseline.wallets.keys, key.Normal
  oneSpelling : ∀ key ∈ bc.currentBaseline.wallets.keys,
    ∀ other ∈ bc.currentBaseline.wallets.keys,
      removeWhiteSpace key.shortString = removeWhiteSpace other.shortString → key = other

/-- The call puts no key with white space into the wallets: a block names none, a new root has
none, and a block that is refused is not refused for a wallet with such a key. -/
def NamesNoSpace (crypto : CryptoHelper) (bc : Blockchain) : ChainCall → Prop
  | .op (.addBlock block) => ∀ key, block.Names key → key.NoSpace
  | .op (.query (.validateBlock block)) =>
    ∀ newest key, bc.getNewestBlock = some newest → checkContents crypto bc block newest = true →
      bc.firstOverdrawn block = some key → key.NoSpace
  | .op _ => True
  | .initEmptyChain => True
  | .setRootBlock block => block.header.blockUid ≠ 0 → ∀ key ∈ block.wallets.keys, key.NoSpace

section Calls

variable {crypto : CryptoHelper} {bc : Blockchain}

theorem normalForm_iff_noSpace :
    NormalForm bc ↔ ∀ key ∈ bc.currentBaseline.wallets.keys, key.NoSpace := by
  constructor
  · exact fun h key hkey => (normal_iff key).1 (h.normal key hkey)
  · intro h
    refine ⟨fun key hkey => (normal_iff key).2 (h key hkey), fun key hkey other hother heq => ?_⟩
    rw [(h key hkey).removeWhiteSpace_eq, (h other hother).removeWhiteSpace_eq] at heq
    exact shortString_injective heq

/-- Old wallets stay, so only the new ones count. -/
theorem normalForm_of_keys {bc' : Blockchain} {New : PublicKeyPEM → Prop} (h : NormalForm bc)
    (hkeys : ∀ key, key ∈ bc'.currentBaseline.wallets.keys ↔
      key ∈ bc.currentBaseline.wallets.keys ∨ New key) :
    NormalForm bc' ↔ ∀ key, New key → key.NoSpace := by
  rw [normalForm_iff_noSpace] at h ⊢
  constructor
  · exact fun hall key hnew => hall key ((hkeys key).2 (Or.inr hnew))
  · intro hnew key hkey
    exact ((hkeys key).1 hkey).elim (h key) (hnew key)

theorem mem_keys_addBlock {block : CollectionBlock} {key : PublicKeyPEM} :
    key ∈ (bc.addBlock crypto block).currentBaseline.wallets.keys ↔
      key ∈ bc.currentBaseline.wallets.keys ∨ block.Names key := by
  rw [← mem_keys_applyBlock, ← updateCurrentBaseline_wallets crypto _ bc.cache.nextFreeBlockId]
  rfl

theorem normalForm_initEmptyChain : NormalForm (bc.initEmptyChain crypto) :=
  normalForm_iff_noSpace.2 fun _ hkey => absurd hkey List.not_mem_nil

theorem normalForm_call_iff (h : NormalForm bc) (call : ChainCall) :
    NormalForm (bc.call crypto call) ↔ NamesNoSpace crypto bc call := by
  cases call with
  | op op =>
    cases op with
    | addBlock block => exact normalForm_of_keys h fun key => mem_keys_addBlock
    | establishBaseline => exact iff_of_true ⟨h.normal, h.oneSpelling⟩ trivial
    | cacheThread => exact iff_of_true ⟨h.normal, h.oneSpelling⟩ trivial
    | query question =>
      cases question with
      | validateBlock block =>
        refine (normalForm_of_keys h fun key => Blockchain.mem_keys_validateBlock).trans ?_
        constructor
        · exact fun hall newest key hn hc hfirst => hall key ⟨newest, hn, hc, hfirst⟩
        · rintro hall key ⟨newest, hn, hc, hfirst⟩
          exact hall newest key hn hc hfirst
      | _ => exact iff_of_true h trivial
  | initEmptyChain => exact iff_of_true normalForm_initEmptyChain trivial
  | setRootBlock block =>
    by_cases h0 : block.header.blockUid = 0
    · have hskip : bc.setRootBlock block = bc := if_pos h0
      rw [Blockchain.call, hskip]
      exact iff_of_true h fun hne => absurd h0 hne
    · have hwallets : (bc.setRootBlock block).currentBaseline.wallets = block.wallets := by
        rw [Blockchain.setRootBlock, if_neg h0]
        rfl
      rw [Blockchain.call, normalForm_iff_noSpace, hwallets]
      exact ⟨fun hall _ => hall, fun hall => hall h0⟩

end Calls

/-- **When the wallets are in normal form.** In every run from the constructor, all keys of wallets
are in normal form in every state exactly if no call puts a key with white space into them. -/
theorem normalForm_iff (crypto : CryptoHelper) (folder : OrdMap BlockUid Block)
    (calls : List ChainCall) :
    Run.AllStates (Blockchain.call crypto) NormalForm (Blockchain.construct crypto folder) calls ↔
      Run.AllSteps (Blockchain.call crypto) (NamesNoSpace crypto)
        (Blockchain.construct crypto folder) calls :=
  Run.AllStates.iff_allSteps (P := fun _ _ => True)
    (fun _ call h _ => normalForm_call_iff h call) normalForm_initEmptyChain
    (Run.AllSteps.of_forall_mem fun _ _ _ => trivial)

namespace Sample

/-- A key, and the same with a line break inside the text. -/
def plainKey : PublicKeyPEM := ⟨[66, 66]⟩

def brokenKey : PublicKeyPEM := ⟨[66, 10, 66]⟩

/-- The chain after `keyA` has mined a coin. -/
def coinChain : Blockchain := (Blockchain.construct .sample ∅).addBlock .sample mining

/-- `keyA` pays to both spellings. -/
def toBothSpellings : CollectionBlock :=
  Sample.block (.collection mining)
    [payment (.collection mining) keyA plainKey 400000,
      payment (.collection mining) keyA brokenKey 100000] []

/-- A connector that hands collections on. -/
def connector : P2PConnector := { callbackCollection := true }

end Sample

/-- A key with a line break comes in a message, the block is accepted, and one key has two
wallets. -/
theorem broken_key_gets_wallet :
    Sample.connector.receivedMessage [1] (collectionMessage Sample.toBothSpellings false) =
        some (.callbackCollection [1] Sample.toBothSpellings false) ∧
      Sample.coinChain.Accepts .sample Sample.toBothSpellings ∧
      (let chain := Sample.coinChain.addBlock .sample Sample.toBothSpellings
       chain.getBalance Sample.plainKey = 400000 ∧ chain.getBalance Sample.brokenKey = 100000) ∧
      PublicKeyPEM.initFromString Sample.brokenKey.getAsFullString = Sample.plainKey ∧
      ¬ NormalForm (Sample.coinChain.addBlock .sample Sample.toBothSpellings) := by
  have hmem : Sample.brokenKey ∈
      (Sample.coinChain.addBlock .sample Sample.toBothSpellings).currentBaseline.wallets.keys := by
    decide +kernel
  have hspelling : ¬ Sample.brokenKey.Normal := by decide +kernel
  refine ⟨by decide +kernel, by decide +kernel, by decide +kernel, by decide +kernel, fun h => ?_⟩
  exact hspelling (h.normal _ hmem)

end SwabianCoin
