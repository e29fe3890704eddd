import NumbaCudaMlir.Strided

/-!
# Arrays of items

A view places items of some number of bytes at an offset and strides, counted in
bytes. Another item size can be given to an axis whose items follow each other:
its bytes are then cut into the new items.
-/

namespace ItemView

open Strided

structure View where
  itemsize : Nat
  offset : Int
  shape : List Int
  strides : List Int
  deriving DecidableEq

def View.address (v : View) (is : List Int) : Int := v.offset + dot is v.strides

/-- The views have the same elements at the same bytes. -/
structure Same (a b : View) : Prop where
  itemsize : a.itemsize = b.itemsize
  shape : a.shape = b.shape
  address : ∀ is, InRange b.shape is → a.address is = b.address is

section
variable (v : View) (axis new : Nat)

/-- The items along the axis follow each other. -/
def Contiguous : Prop := v.shape.getD axis 0 = 1 ∨ v.shape.prod = 0 ∨ v.strides.getD axis 0 = v.itemsize

/-- Cut into items of `new` bytes, nothing is left of the items of the axis. -/
def CutsWhole : Prop := if new < v.itemsize then new ∣ v.itemsize else (new : Int) ∣ v.shape.getD axis 0 * v.itemsize

instance : Decidable (Contiguous v axis) := inferInstanceAs (Decidable (_ ∨ _ ∨ _))

instance : Decidable (CutsWhole v axis new) := 
  inferInstanceAs (Decidable (if new < v.itemsize then _ else _))

/-- The view with items of `new` bytes along the axis, where there is one. -/
def alongAxis : Option View :=
  if new = v.itemsize then some v
  else if axis < v.shape.length ∧ Contiguous v axis ∧ CutsWhole v axis new then
    some ⟨new, v.offset, v.shape.set axis (v.shape.getD axis 0 * v.itemsize / new), v.strides.set axis new⟩
  else none

end

/-- A view under another dtype: its last axis is cut. -/
def lastAxis (v : View) (new : Nat) : Option View := alongAxis v (v.shape.length - 1) new

section
variable {a b : View}

theorem same_refl (v : View) : Same v v := ⟨rfl, rfl, fun _ _ => rfl⟩

theorem address_eq_iff (hpos : ∀ n ∈ b.shape, 0 < n) (ha : a.strides.length = b.shape.length) (hb : b.strides.length = b.shape.length) :
    (∀ is, InRange b.shape is → a.address is = b.address is) ↔ a.offset = b.offset ∧ AgreeWide b.shape a.strides b.strides := by
  constructor
  · intro h
    have h0 : a.offset = b.offset := by simpa [View.address, dot_zeros] using h _ (inRange_zeros hpos)
    refine ⟨h0, agree_of_dot_eq hpos ha hb fun is his => ?_⟩
    have := h is his
    unfold View.address at this
    omega
  · intro ⟨h0, hag⟩ is his
    rw [View.address, View.address, h0, dot_eq_of_agree his (ha.trans hb.symm) hag]

theorem same_iff (hi : a.itemsize = b.itemsize) (hs : a.shape = b.shape) (ha : a.strides.length = b.shape.length)
    (hb : b.strides.length = b.shape.length) :
    Same a b ↔ (∃ n ∈ b.shape, n ≤ 0) ∨ a.offset = b.offset ∧ AgreeWide b.shape a.strides b.strides := by
  by_cases he : ∃ n ∈ b.shape, n ≤ 0
  · exact ⟨fun _ => .inl he, fun _ => ⟨hi, hs, fun is his => absurd his (not_inRange_of_empty he)⟩⟩
  · have hpos : ∀ n ∈ b.shape, 0 < n := fun n hn => by
      by_contra hc
      exact he ⟨n, hn, by omega⟩
    rw [or_iff_right he, ← address_eq_iff hpos ha hb]
    exact ⟨Same.address, fun h => ⟨hi, hs, h⟩⟩

end

theorem alongAxis_eq_some {v u : View} {axis new : Nat} (hne : new ≠ v.itemsize) (h : alongAxis v axis new = some u) :
    axis < v.shape.length ∧ CutsWhole v axis new ∧
      u = ⟨new, v.offset, v.shape.set axis (v.shape.getD axis 0 * v.itemsize / new), v.strides.set axis new⟩ := by
  rw [alongAxis, if_neg hne, Option.ite_none_right_eq_some] at h
  exact ⟨h.1.1, h.1.2.2, (Option.some.inj h.2).symm⟩

end ItemView
