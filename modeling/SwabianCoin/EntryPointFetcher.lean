import Mathlib.Data.List.TakeWhile
import SwabianCoin.BlockDefinitions
import SwabianCoin.Lib.Numeral

/-!
# Entry points

`EntryPointFetcher` asks a server for a list of entry points, one `host:port` in a line, and puts
each of them in front of the ones that are built in. A line with more or less than one colon is
skipped; a port that is no number throws, and the list ends there. What was read before is kept, so
the built-in entry points are always there, at the end.
-/

namespace SwabianCoin

open Numeral

/-- A host and a port. -/
abbrev EntryPoint := Bytes × UInt16

def newline : UInt8 := 10

def colon : UInt8 := 58

/-! ## The port -/

def isSpace (byte : UInt8) : Bool := byte = 32 || decide (9 ≤ byte ∧ byte ≤ 13)

def isDigit (byte : UInt8) : Bool := decide (48 ≤ byte ∧ byte ≤ 57)

/-- The sign of a number and what follows. -/
def splitSign : Bytes → Bool × Bytes
  | 45 :: rest => (true, rest)
  | 43 :: rest => (false, rest)
  | text => (false, text)

/-- `std::stoi`: spaces, a sign and digits; what follows does not matter. It throws if there are no
digits and if the number is no `int`. -/
def stoi (text : Bytes) : Option Int :=
  let signed := splitSign (text.dropWhile isSpace)
  let digits := signed.2.takeWhile isDigit
  let number : Int := if signed.1 then -(value 10 digits : Int) else value 10 digits
  if digits = [] then none
  else if -2 ^ 31 ≤ number ∧ number < 2 ^ 31 then some number
  else none

/-! ## The list -/

namespace EntryPointFetcher

/-- `entry_points_fallback_`, which are always tried last. -/
def entryPointsFallback : List EntryPoint :=
  [("56bd5cf.online-server.cloud".toUTF8.toList, 13286),
    ("f11b639.online-server.cloud".toUTF8.toList, 13288),
    ("e2f7bf6.online-server.cloud".toUTF8.toList, 13290),
    ("df564a5.online-server.cloud".toUTF8.toList, 13292),
    ("v33200.1blu.de".toUTF8.toList, 13294), ("v36919.1blu.de".toUTF8.toList, 13296),
    ("v41253.1blu.de".toUTF8.toList, 13298), ("v26254.1blu.de".toUTF8.toList, 13300)]

/-- The loop over the lines. -/
def readLines : List Bytes → List EntryPoint → List EntryPoint
  | [], entryPoints => entryPoints
  | line :: lines, entryPoints =>
    match line.splitOn colon with
    | [host, port] =>
      match stoi port with
      | none => entryPoints
      | some number => readLines lines ((host, UInt16.ofInt number) :: entryPoints)
    | _ => readLines lines entryPoints

/-- With the text the server has sent, if there is an answer. -/
def fetch : Option Bytes → List EntryPoint
  | none => entryPointsFallback
  | some body => readLines (body.splitOn newline) entryPointsFallback

/-- A line of the list. -/
def lineText (entryPoint : EntryPoint) : Bytes :=
  entryPoint.1 ++ colon :: numeral 10 entryPoint.2.toNat

/-- A list as it is kept on the server. -/
def listText (entryPoints : List EntryPoint) : Bytes :=
  entryPoints.flatMap fun entryPoint => lineText entryPoint ++ [newline]

/-! ## Reading a list -/

theorem isDigit_numeral (n : Nat) : ∀ byte ∈ numeral 10 n, isDigit byte = true := by
  have hdigits : ∀ digit < 10, isDigit (digitByte digit) = true := by decide
  induction n using numeral_induction (by decide : 1 < 10) with
  | hdigit n h =>
    intro byte hbyte
    rw [List.mem_singleton.1 hbyte]
    exact hdigits n h
  | hmore n _ ih =>
    intro byte hbyte
    rcases List.mem_append.1 hbyte with hbyte | hbyte
    · exact ih byte hbyte
    · rw [List.mem_singleton.1 hbyte]
      exact hdigits (n % 10) (Nat.mod_lt n (by decide))

theorem numeral_ne_nil (n : Nat) : numeral 10 n ≠ [] := by
  induction n using numeral_induction (by decide : 1 < 10) with
  | hdigit n h => simp
  | hmore n h ih => simp

theorem not_mem_numeral {byte : UInt8} (h : isDigit byte = false) (n : Nat) :
    byte ∉ numeral 10 n := by
  intro hmem
  rw [isDigit_numeral n byte hmem] at h
  cases h

theorem of_isDigit {byte : UInt8} (h : isDigit byte = true) :
    isSpace byte = false ∧ byte ≠ 45 ∧ byte ≠ 43 := by
  have hdigit : 48 ≤ byte.toNat ∧ byte.toNat ≤ 57 := of_decide_eq_true h
  have hne : ∀ other : UInt8, other.toNat < 48 → byte ≠ other := by
    rintro other hother rfl
    omega
  refine ⟨?_, hne 45 (by decide), hne 43 (by decide)⟩
  have hlarge : ¬ (9 ≤ byte ∧ byte ≤ 13) := fun hspace => by
    have hsmall : byte.toNat ≤ 13 := hspace.2
    omega
  simp only [isSpace, hne 32 (by decide), hlarge, decide_false, Bool.or_self]

theorem stoi_numeral (port : UInt16) : stoi (numeral 10 port.toNat) = some (port.toNat : Int) := by
  have hdigits := isDigit_numeral port.toNat
  have hlt := port.toNat_lt
  have hne := numeral_ne_nil port.toNat
  have hsigned : splitSign ((numeral 10 port.toNat).dropWhile isSpace) =
      (false, numeral 10 port.toNat) := by
    obtain ⟨first, rest, hnumeral⟩ := List.exists_cons_of_ne_nil hne
    have hfirst := hdigits first (by rw [hnumeral]; exact List.mem_cons_self)
    obtain ⟨hspace, hminus, hplus⟩ := of_isDigit hfirst
    rw [hnumeral, List.dropWhile_cons_of_neg (by simp [hspace])]
    unfold splitSign
    split
    · next heq => exact absurd (List.cons.inj heq).1 hminus
    · next heq => exact absurd (List.cons.inj heq).1 hplus
    · rfl
  have htake : (numeral 10 port.toNat).takeWhile isDigit = numeral 10 port.toNat :=
    List.takeWhile_eq_self_iff.2 hdigits
  simp only [stoi, hsigned, htake, value_numeral (by decide : 1 < 10) (by decide) port.toNat, hne,
    Bool.false_eq_true, if_false]
  rw [if_pos (by omega)]

theorem ofInt_toNat (port : UInt16) : UInt16.ofInt (port.toNat : Int) = port := by
  have hlt : (port.toNat : Int) < 2 ^ 16 := by exact_mod_cast port.toNat_lt
  rw [UInt16.ofInt, Int.emod_eq_of_lt (Int.natCast_nonneg _) hlt, Int.toNat_natCast,
    UInt16.ofNat_toNat]

theorem splitOn_append {separator : UInt8} {text rest : Bytes} (h : separator ∉ text) :
    (text ++ separator :: rest).splitOn separator = text :: rest.splitOn separator := by
  rw [List.splitOn_eq_splitOnP, List.splitOn_eq_splitOnP]
  refine List.splitOnP_append_cons_of_forall_mem (fun byte hbyte => ?_) separator (by simp) rest
  simpa using fun heq : byte = separator => h (heq ▸ hbyte)

theorem splitOn_self {separator : UInt8} {text : Bytes} (h : separator ∉ text) :
    text.splitOn separator = [text] := by
  rw [List.splitOn_eq_splitOnP]
  refine List.splitOnP_eq_singleton fun byte hbyte => ?_
  simpa using fun heq : byte = separator => h (heq ▸ hbyte)

theorem readLines_cons {host port : Bytes} (hhost : colon ∉ host) (hport : colon ∉ port)
    (lines : List Bytes) (entryPoints : List EntryPoint) :
    readLines ((host ++ colon :: port) :: lines) entryPoints =
      match stoi port with
      | none => entryPoints
      | some number => readLines lines ((host, UInt16.ofInt number) :: entryPoints) := by
  rw [readLines, splitOn_append hhost, splitOn_self hport]

/-- **A list is read line by line**, and then what follows. -/
theorem readLines_listText {entryPoints : List EntryPoint}
    (hhosts : ∀ entryPoint ∈ entryPoints, colon ∉ entryPoint.1 ∧ newline ∉ entryPoint.1)
    (rest : Bytes) (before : List EntryPoint) :
    readLines ((listText entryPoints ++ rest).splitOn newline) before =
      readLines (rest.splitOn newline) (entryPoints.reverse ++ before) := by
  induction entryPoints generalizing before with
  | nil => rfl
  | cons entryPoint entryPoints ih =>
    obtain ⟨⟨hcolon, hnewline⟩, hothers⟩ := List.forall_mem_cons.1 hhosts
    have hline : newline ∉ lineText entryPoint := by
      simp only [lineText, List.mem_append, List.mem_cons, not_or]
      exact ⟨hnewline, by decide, not_mem_numeral (by decide) _⟩
    have htext : listText (entryPoint :: entryPoints) ++ rest =
        lineText entryPoint ++ newline :: (listText entryPoints ++ rest) := by
      simp [listText]
    rw [htext, splitOn_append hline, lineText,
      readLines_cons hcolon (not_mem_numeral (by decide) _), stoi_numeral]
    dsimp only
    rw [ih hothers, List.reverse_cons, List.append_assoc]
    rw [ofInt_toNat]
    rfl

/-- Whatever the lines are, what was there before stays at the end. -/
theorem suffix_readLines (lines : List Bytes) (before : List EntryPoint) :
    before <:+ readLines lines before := by
  induction lines generalizing before with
  | nil => exact List.suffix_rfl
  | cons line lines ih =>
    unfold readLines
    split
    · split
      · exact List.suffix_rfl
      · exact (List.suffix_cons _ _).trans (ih _)
    · exact ih before

/-- **The entry points of a list** come in reverse order before the built-in ones; a port that is no
number ends the list, whatever follows, and nothing takes the built-in ones away. -/
theorem fetch_listText (entryPoints : List EntryPoint)
    (hhosts : ∀ entryPoint ∈ entryPoints, colon ∉ entryPoint.1 ∧ newline ∉ entryPoint.1) :
    fetch (some (listText entryPoints)) = entryPoints.reverse ++ entryPointsFallback ∧
    (∀ host port rest : Bytes, colon ∉ host → newline ∉ host → colon ∉ port → newline ∉ port →
      stoi port = none →
      fetch (some (listText entryPoints ++ (host ++ colon :: port ++ newline :: rest))) =
        entryPoints.reverse ++ entryPointsFallback) ∧
    ∀ response, entryPointsFallback <:+ fetch response := by
  refine ⟨?_, fun host port rest hhost hhost' hport hport' hthrows => ?_, fun response => ?_⟩
  · have hlist := readLines_listText hhosts [] entryPointsFallback
    rw [List.append_nil] at hlist
    exact hlist
  · have hline : newline ∉ host ++ colon :: port := by
      simp only [List.mem_append, List.mem_cons, not_or]
      exact ⟨hhost', by decide, hport'⟩
    rw [fetch, readLines_listText hhosts, splitOn_append hline, readLines_cons hhost hport, hthrows]
  · cases response with
    | none => exact List.suffix_rfl
    | some body => exact suffix_readLines _ _

/-- A list with the hosts `h` and `i`, and one that breaks off after them. -/
theorem fetch_two_hosts :
    fetch (some (listText [([104], 80), ([105], 8080)])) =
        ([105], 8080) :: ([104], 80) :: entryPointsFallback ∧
      stoi [120] = none ∧
      fetch (some (listText [([104], 80), ([105], 8080)] ++ ([106] ++ colon :: [120] ++ newline ::
        listText [([107], 81)]))) = ([105], 8080) :: ([104], 80) :: entryPointsFallback := by
  have hlisted := fetch_listText [([104], 80), ([105], 8080)] (by decide)
  exact ⟨hlisted.1, by decide, hlisted.2.1 [106] [120] _ (by decide) (by decide) (by decide)
    (by decide) (by decide)⟩

end EntryPointFetcher

end SwabianCoin
