import LiquidTemplate.Text.Basic

/-!
# Items with an offset

A sequence of items that were cut from a text without a gap needs no offsets of its own: each item
starts where the one before it ended. `locate` adds them, from the offset of the first.
-/

namespace LiquidTemplate

/-- An item together with the offset it starts at. -/
structure Located (α : Type) where
  start : Nat
  item : α
deriving DecidableEq, Repr

namespace Located

variable {α : Type}

/-- Locates the items from `start` on and puts them behind `done`, which is kept in reverse. -/
def locateOnto (width : α → Nat) (done : List (Located α)) (start : Nat) :
    List α → List (Located α)
  | [] => done.reverse
  | x :: xs => locateOnto width (⟨start, x⟩ :: done) (start + width x) xs

/-- Places items one behind the other, the first at `start`. -/
def locate (width : α → Nat) (start : Nat) (items : List α) : List (Located α) :=
  locateOnto width [] start items

theorem locateOnto_eq (width : α → Nat) (done : List (Located α)) (start : Nat) (items : List α) :
    locateOnto width done start items = done.reverse ++ locate width start items := by
  induction items generalizing done start with
  | nil => simp [locateOnto, locate]
  | cons x xs ih =>
    simp only [locate, locateOnto]
    rw [ih, ih [⟨start, x⟩]]
    simp

@[simp] theorem locate_nil (width : α → Nat) (start : Nat) : locate width start [] = [] := rfl

@[simp] theorem locate_cons (width : α → Nat) (start : Nat) (x : α) (xs : List α) :
    locate width start (x :: xs) = ⟨start, x⟩ :: locate width (start + width x) xs := by
  simp only [locate, locateOnto]
  rw [locateOnto_eq]
  rfl

end Located

end LiquidTemplate
