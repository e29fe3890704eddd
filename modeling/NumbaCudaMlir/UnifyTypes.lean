import Mathlib.Data.List.Sort
import NumbaCudaMlir.NumberTyping

/-!
# Unification of number types

The type that booleans and integers are unified to: the one of NumPy's
promotion, pair by pair from the narrowest on.
-/

namespace NumbaCudaMlir

namespace NumberTyping

open MachineInt

inductive UnifiedType where
  | boolean
  | integer (ty : IntType)
  | float64
  deriving DecidableEq, Repr

def OperandType.unified : OperandType → UnifiedType
  | boolean => .boolean
  | integer ty => .integer ty

/-- A boolean has no `bitwidth`. -/
def OperandType.bitwidth : OperandType → Nat
  | boolean => 0
  | integer ty => ty.bits

/-- The signed type of twice the width, and a float where there is none. -/
def nextSigned : Width → UnifiedType
  | .w8 => .integer ⟨true, .w16⟩
  | .w16 => .integer ⟨true, .w32⟩
  | .w32 => .integer ⟨true, .w64⟩
  | .w64 => .float64

def promoteTypes (a b : IntType) : UnifiedType :=
  if a.signed = b.signed then .integer ⟨a.signed, maxWidth a b⟩
  else if a.signed then
    if b.bits < a.bits then .integer a else nextSigned b.width
  else
    if a.bits < b.bits then .integer b else nextSigned a.width

def unifyPairs : UnifiedType → OperandType → UnifiedType
  | .boolean, second => second.unified
  | .integer a, .boolean => .integer a
  | .integer a, .integer b => promoteTypes a b
  | .float64, _ => .float64

def unifyTypes (typelist : List OperandType) : UnifiedType :=
  match typelist.insertionSort fun a b => a.bitwidth ≤ b.bitwidth with
  | [] => .boolean
  | first :: rest => rest.foldl unifyPairs first.unified

/-! ## Widths -/

/-- Values of the second type are kept in the first, or become floats. -/
def UnifiedType.Covers : UnifiedType → OperandType → Prop
  | boolean, d => d = .boolean
  | integer ty, d => d.bitwidth ≤ ty.bits
  | float64, _ => True

theorem covers_self (d : OperandType) : d.unified.Covers d := by
  cases d with
  | boolean => rfl
  | integer ty => exact Nat.le_refl _

theorem nextSigned_covers {w : Width} {d : OperandType} (h : d.bitwidth ≤ w.bits) : (nextSigned w).Covers d := by
  cases w with
  | w64 => trivial
  | w8 => exact h.trans (by decide)
  | w16 => exact h.trans (by decide)
  | w32 => exact h.trans (by decide)

theorem promoteTypes_covers {a b : IntType} {d : OperandType} (h : d.bitwidth ≤ a.bits ∨ d.bitwidth ≤ b.bits) :
    (promoteTypes a b).Covers d := by
  unfold promoteTypes
  by_cases hs : a.signed = b.signed
  · rw [if_pos hs]
    show d.bitwidth ≤ (maxWidth a b).bits
    unfold maxWidth
    by_cases hlt : a.bits < b.bits
    · rw [if_pos hlt]
      exact h.elim (fun h => h.trans hlt.le) id
    · rw [if_neg hlt]
      exact h.elim id fun h => h.trans (Nat.le_of_not_lt hlt)
  · rw [if_neg hs]
    by_cases ha : a.signed = true
    · rw [if_pos ha]
      by_cases hlt : b.bits < a.bits
      · rw [if_pos hlt]
        exact h.elim id fun h => h.trans hlt.le
      · rw [if_neg hlt]
        exact nextSigned_covers (h.elim (fun h => h.trans (Nat.le_of_not_lt hlt)) id)
    · rw [if_neg ha]
      by_cases hlt : a.bits < b.bits
      · rw [if_pos hlt]
        exact h.elim (fun h => h.trans hlt.le) id
      · rw [if_neg hlt]
        exact nextSigned_covers (h.elim id fun h => h.trans (Nat.le_of_not_lt hlt))

theorem unifyPairs_covers {u : UnifiedType} {e d : OperandType} (h : u.Covers d ∨ d = e) : (unifyPairs u e).Covers d := by
  cases u with
  | boolean =>
    rcases h with rfl | rfl
    · cases e with
      | boolean => rfl
      | integer ty => exact Nat.zero_le _
    · exact covers_self d
  | integer a =>
    cases e with
    | boolean =>
      rcases h with h | rfl
      · exact h
      · exact Nat.zero_le _
    | integer b =>
      refine promoteTypes_covers (h.imp id ?_)
      rintro rfl
      exact Nat.le_refl _
  | float64 => trivial

theorem foldl_unifyPairs_covers {types : List OperandType} {d : OperandType} : ∀ {u : UnifiedType}, u.Covers d ∨ d ∈ types →
    (types.foldl unifyPairs u).Covers d := by
  induction types with
  | nil =>
    rintro u (h | h)
    · exact h
    · cases h
  | cons e types ih =>
    intro u h
    refine ih ?_
    rcases h with h | h
    · exact .inl (unifyPairs_covers (.inl h))
    · rcases List.mem_cons.mp h with rfl | h
      · exact .inl (unifyPairs_covers (.inr rfl))
      · exact .inr h

theorem unifyTypes_covers {types : List OperandType} {d : OperandType} (h : d ∈ types) : (unifyTypes types).Covers d := by
  unfold unifyTypes
  have hmem : d ∈ types.insertionSort fun a b => a.bitwidth ≤ b.bitwidth := (List.mem_insertionSort _).mpr h
  cases hsort : types.insertionSort fun a b => a.bitwidth ≤ b.bitwidth with
  | nil => rw [hsort] at hmem; cases hmem
  | cons first rest =>
    rw [hsort] at hmem
    refine foldl_unifyPairs_covers ?_
    rcases List.mem_cons.mp hmem with rfl | hmem
    · exact .inl (covers_self _)
    · exact .inr hmem

end NumberTyping

end NumbaCudaMlir
