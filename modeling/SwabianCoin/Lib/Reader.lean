import Mathlib.Data.List.Basic
import Mathlib.Data.UInt

/-!
# Reading values from bytes

A `Reader` takes a value from the front of a list of bytes, or fails. `Reads reader bytes a` says
that the reader makes `a` of `bytes` and leaves alone whatever follows. The rules compose readers
as their programs are composed, so a round trip is proved along the code of the reader.

A format that is read back is injective: `Reads.unique`. `Extends reader` says that a reader that
succeeds does the same when more bytes follow. Then what it reads has no part that it reads as well:
`Extends.part_cases`.

`Yields reader P` says that whatever a reader makes of any bytes satisfies `P`.
-/

/-- Take a value from the front of the bytes. -/
abbrev Reader := StateT (List UInt8) Option

namespace Reader

variable {α β : Type} {reader : Reader α} {bytes bytes' : List UInt8} {a b : α}

/-- The next `count` bytes. -/
def take (count : Nat) : Reader (List UInt8) := fun bytes =>
  if count ≤ bytes.length then some (bytes.take count, bytes.drop count) else none

/-- The next byte. -/
def byte : Reader UInt8 := fun
  | [] => none
  | first :: rest => some (first, rest)

/-- The same again and again. -/
def times (reader : Reader α) : Nat → Reader (List α)
  | 0 => pure []
  | count + 1 => do
    let first ← reader
    let rest ← times reader count
    pure (first :: rest)

/-- The reader makes `a` of `bytes`, whatever follows. -/
def Reads (reader : Reader α) (bytes : List UInt8) (a : α) : Prop :=
  ∀ rest, reader (bytes ++ rest) = some (a, rest)

theorem Reads.pure (a : α) : Reads (pure a) [] a := fun _ => rfl

theorem Reads.bind (h : Reads reader bytes a) {next : α → Reader β} {c : β}
    (hnext : Reads (next a) bytes' c) : Reads (reader >>= next) (bytes ++ bytes') c := by
  intro rest
  show (reader ((bytes ++ bytes') ++ rest)).bind (fun result => next result.1 result.2) = _
  rw [List.append_assoc, h]
  exact hnext rest

/-- Whatever follows is left to the next reader. -/
theorem Reads.bind_append (h : Reads reader bytes a) (next : α → Reader β) (rest : List UInt8) :
    (reader >>= next) (bytes ++ rest) = next a rest := by
  show (reader (bytes ++ rest)).bind (fun result => next result.1 result.2) = _
  rw [h]
  rfl

theorem Reads.map (h : Reads reader bytes a) (f : α → β) :
    Reads (reader >>= fun value => Pure.pure (f value)) bytes (f a) := by
  have hbind : Reads (reader >>= fun value => Pure.pure (f value)) (bytes ++ []) (f a) :=
    h.bind (Reads.pure (f a))
  rwa [List.append_nil] at hbind

theorem reads_take (bytes : List UInt8) : Reads (take bytes.length) bytes bytes := by
  intro rest
  simp [take]

theorem reads_byte (first : UInt8) : Reads byte [first] first := fun _ => rfl

theorem Reads.times {ser : α → List UInt8} {elements : List α}
    (h : ∀ element ∈ elements, Reads reader (ser element) element) :
    Reads (times reader elements.length) (elements.flatMap ser) elements := by
  induction elements with
  | nil => exact Reads.pure []
  | cons first rest ih =>
    obtain ⟨hfirst, hrest⟩ := List.forall_mem_cons.1 h
    exact hfirst.bind ((ih hrest).map fun rest => first :: rest)

/-- What is read back is determined by its bytes, and so is what follows. -/
theorem Reads.unique (h : Reads reader bytes a) (h' : Reads reader bytes' b)
    {rest rest' : List UInt8} (heq : bytes ++ rest = bytes' ++ rest') : a = b ∧ rest = rest' := by
  have hread := h rest
  rw [heq, h' rest', Option.some.injEq, Prod.mk.injEq] at hread
  exact ⟨hread.1.symm, hread.2.symm⟩

/-! ## Parts of a text -/

/-- What follows does not matter to a reader that succeeds. -/
def Extends (reader : Reader α) : Prop :=
  ∀ bytes a rest ext, reader bytes = some (a, rest) → reader (bytes ++ ext) = some (a, rest ++ ext)

theorem Extends.pure (a : α) : Extends (Pure.pure a) := by
  intro bytes b rest ext h
  cases h
  rfl

theorem Extends.bind (h : Extends reader) {next : α → Reader β} (hnext : ∀ a, Extends (next a)) :
    Extends (reader >>= next) := by
  intro bytes c rest ext hread
  change (reader bytes).bind (fun result => next result.1 result.2) = some (c, rest) at hread
  show (reader (bytes ++ ext)).bind (fun result => next result.1 result.2) = some (c, rest ++ ext)
  obtain ⟨⟨a, middle⟩, hfirst, hsecond⟩ := Option.bind_eq_some_iff.1 hread
  rw [h bytes a middle ext hfirst]
  exact hnext a middle c rest ext hsecond

theorem Extends.map (h : Extends reader) (f : α → β) :
    Extends (reader >>= fun value => Pure.pure (f value)) :=
  h.bind fun value => Extends.pure (f value)

theorem extends_take (count : Nat) : Extends (take count) := by
  intro bytes a rest ext h
  simp only [take] at h ⊢
  split_ifs at h with hle
  cases h
  have hlonger : count ≤ (bytes ++ ext).length := by
    rw [List.length_append]
    exact Nat.le_add_right_of_le hle
  rw [if_pos hlonger, List.take_append_of_le_length hle, List.drop_append_of_le_length hle]

theorem extends_byte : Extends byte := by
  intro bytes a rest ext h
  cases bytes with
  | nil => cases h
  | cons first bytes =>
    cases h
    rfl

theorem Extends.times (h : Extends reader) (count : Nat) : Extends (times reader count) := by
  induction count with
  | zero => exact Extends.pure []
  | succ count ih => exact h.bind fun first => ih.map fun rest => first :: rest

/-- **A part of a text** is not read, or read in the same way with a part of what is left. -/
theorem Extends.part_cases (h : Extends reader) {part ext rest : List UInt8}
    (hread : reader (part ++ ext) = some (a, rest)) :
    reader part = none ∨ ∃ rest', reader part = some (a, rest') ∧ rest = rest' ++ ext := by
  cases hpart : reader part with
  | none => exact Or.inl rfl
  | some result =>
    obtain ⟨b, rest'⟩ := result
    rw [h part b rest' ext hpart, Option.some.injEq, Prod.mk.injEq] at hread
    exact Or.inr ⟨rest', by rw [hread.1], hread.2.symm⟩

/-! ## What is read -/

/-- All that the reader makes of any bytes satisfies `P`. -/
def Yields (reader : Reader α) (P : α → Prop) : Prop :=
  ∀ bytes a rest, reader bytes = some (a, rest) → P a

theorem Yields.pure {P : α → Prop} (h : P a) : Yields (Pure.pure a) P := by
  intro bytes b rest hread
  cases hread
  exact h

theorem Yields.bind {P : α → Prop} (h : Yields reader P) {next : α → Reader β} {Q : β → Prop}
    (hnext : ∀ a, P a → Yields (next a) Q) : Yields (reader >>= next) Q := by
  intro bytes c rest hread
  change (reader bytes).bind (fun result => next result.1 result.2) = some (c, rest) at hread
  obtain ⟨⟨a, middle⟩, hfirst, hsecond⟩ := Option.bind_eq_some_iff.1 hread
  exact hnext a (h bytes a middle hfirst) middle c rest hsecond

theorem Yields.map {P : α → Prop} (h : Yields reader P) {f : α → β} {Q : β → Prop}
    (hf : ∀ a, P a → Q (f a)) : Yields (reader >>= fun value => Pure.pure (f value)) Q :=
  h.bind fun a ha => Yields.pure (hf a ha)

theorem yields_any (reader : Reader α) : Yields reader fun _ => True := fun _ _ _ _ => trivial

theorem yields_take (count : Nat) : Yields (take count) fun bytes => bytes.length = count := by
  intro bytes a rest h
  simp only [take] at h
  split_ifs at h with hle
  cases h
  exact List.length_take_of_le hle

theorem Yields.times {P : α → Prop} (h : Yields reader P) (count : Nat) :
    Yields (times reader count) fun elements =>
      elements.length = count ∧ ∀ element ∈ elements, P element := by
  induction count with
  | zero => exact Yields.pure ⟨rfl, fun element hmem => absurd hmem List.not_mem_nil⟩
  | succ count ih =>
    refine h.bind fun first hfirst => ih.map fun rest hrest => ?_
    exact ⟨congrArg Nat.succ hrest.1, List.forall_mem_cons.2 ⟨hfirst, hrest.2⟩⟩

end Reader
