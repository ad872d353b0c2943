import Mathlib.Data.List.Basic

/-!
# Digests that are fed piece by piece

A digest starts with a context, takes data in pieces and ends with a value. `Concatenates` is what
makes the pieces irrelevant. `Absorbed` says what data a context stands for, so that a program that
feeds a digest is followed by the data it has fed, and never by contexts.
-/

/-- A digest of data over `α`. -/
structure Digest (α δ : Type) where
  Context : Type
  init : Context
  update : Context → List α → Context
  final : Context → δ

namespace Digest

variable {α δ : Type} (digest : Digest α δ)

/-- The digest of data that is there at once. -/
def oneShot (data : List α) : δ := digest.final (digest.update digest.init data)

/-- Two pieces are as good as one. -/
def Concatenates : Prop :=
  ∀ context piece piece',
    digest.update (digest.update context piece) piece' = digest.update context (piece ++ piece')

/-- The context stands for some data: what comes next counts as appended to it. -/
def Absorbed (context : digest.Context) (data : List α) : Prop :=
  ∀ next, digest.update context next = digest.update digest.init (data ++ next)

variable {digest} {context : digest.Context} {data piece : List α}

theorem absorbed_init : digest.Absorbed digest.init [] := fun _ => rfl

theorem Absorbed.update (h : digest.Absorbed context data) (hcat : digest.Concatenates)
    (piece : List α) : digest.Absorbed (digest.update context piece) (data ++ piece) := by
  intro next
  rw [hcat, h, List.append_assoc]

theorem Absorbed.final_update (h : digest.Absorbed context data) (piece : List α) :
    digest.final (digest.update context piece) = digest.oneShot (data ++ piece) := by
  rw [h, oneShot]

end Digest
