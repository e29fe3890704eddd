import Mathlib.Data.List.Basic

/-!
# NumPy dtypes

The dtypes whose arrays and scalars reach a launch, with the three views of
them the launch path reads: the type string of the array interface (`str`),
the item size in bytes, and the printed form (`repr`).
-/

namespace NumbaCudaMlir

inductive ItemSize where
  | s1 | s2 | s4 | s8 | s16 | s32
  deriving DecidableEq, Repr

def ItemSize.bytes : ItemSize → Nat
  | .s1 => 1
  | .s2 => 2
  | .s4 => 4
  | .s8 => 8
  | .s16 => 16
  | .s32 => 32

def ItemSize.digits : ItemSize → List Char
  | .s1 => ['1']
  | .s2 => ['2']
  | .s4 => ['4']
  | .s8 => ['8']
  | .s16 => ['1', '6']
  | .s32 => ['3', '2']

inductive NumKind where
  | bool | int | uint | float | complex
  deriving DecidableEq, Repr

def NumKind.letter : NumKind → Char
  | .bool => 'b'
  | .int => 'i'
  | .uint => 'u'
  | .float => 'f'
  | .complex => 'c'

inductive NpDType where
  | numeric (kind : NumKind) (size : ItemSize)
  | datetime64 (unit : String)
  | timedelta64 (unit : String)
  /-- A structured dtype; `fields` is the printed text of its names, formats and offsets. -/
  | void (fields : String) (itemsize : Nat)
  | bytes (count : Nat)
  | str (count : Nat)
  deriving DecidableEq, Repr

namespace NpDType

def itemsize : NpDType → Nat
  | numeric _ s => s.bytes
  | datetime64 _ | timedelta64 _ => 8
  | void _ n => n
  | bytes n => n
  | str n => 4 * n

def unitSuffix (unit : String) : List Char :=
  if unit = "" then [] else '[' :: unit.toList ++ [']']

/-- `dtype.str`, for a little-endian host. -/
def typestr : NpDType → List Char
  | numeric .bool s => '|' :: 'b' :: s.digits
  | numeric k .s1 => ['|', k.letter, '1']
  | numeric k s => '<' :: k.letter :: s.digits
  | datetime64 u => '<' :: 'M' :: '8' :: unitSuffix u
  | timedelta64 u => '<' :: 'm' :: '8' :: unitSuffix u
  | void _ n => '|' :: 'V' :: Nat.toDigits 10 n
  | bytes n => '|' :: 'S' :: Nat.toDigits 10 n
  | str n => '<' :: 'U' :: Nat.toDigits 10 n

def sizeKey : List Char := [',', ' ', '\'', 'i', 't', 'e', 'm', 's', 'i', 'z', 'e', '\'', ':', ' ']

/-- `repr(dtype)`; a structured dtype is printed in dictionary form. -/
def repr : NpDType → List Char
  | void fs n => ['d', 't', 'y', 'p', 'e', '(', '\x7b'] ++ (fs.toList ++ sizeKey ++ Nat.toDigits 10 n) ++ ['\x7d', ')']
  | d => ['d', 't', 'y', 'p', 'e', '(', '\''] ++ d.typestr ++ ['\'', ')']

def isOpaque : NpDType → Bool
  | void .. | bytes _ | str _ => true
  | _ => false

def kindChar : NpDType → Char
  | numeric k _ => k.letter
  | datetime64 _ => 'M'
  | timedelta64 _ => 'm'
  | void .. => 'V'
  | bytes _ => 'S'
  | str _ => 'U'

def isComplex : NpDType → Bool
  | numeric .complex _ => true
  | _ => false

/-- The dtypes whose arrays carry an identity constant in the kernel key. -/
def hasIdentity (d : NpDType) : Bool := d.kindChar ∈ ['V', 'S', 'U', 'M', 'm']

/-! ## What the texts determine -/

theorem unitSuffix_inj {u v : String} (h : unitSuffix u = unitSuffix v) : u = v := by
  unfold unitSuffix at h
  by_cases hu : u = "" <;> by_cases hv : v = ""
  · rw [hu, hv]
  · simp [hu, hv] at h
  · simp [hu, hv] at h
  · simp only [hu, hv, if_false, List.cons_append, List.cons.injEq, true_and] at h
    exact String.toList_inj.mp (List.append_cancel_right h)

theorem toDigits_inj {n m : Nat} (h : Nat.toDigits 10 n = Nat.toDigits 10 m) : n = m := by
  have := congrArg (fun l => Nat.ofDigitChars 10 l 0) h
  simpa using this

theorem append_digits_inj {c : Char} (hc : c.isDigit = false) {s t : List Char} {n m : Nat}
    (h : s ++ [c] ++ Nat.toDigits 10 n = t ++ [c] ++ Nat.toDigits 10 m) : s = t ∧ n = m := by
  have hrun (s : List Char) (n : Nat) :
      (s ++ [c] ++ Nat.toDigits 10 n).reverse.takeWhile Char.isDigit = (Nat.toDigits 10 n).reverse := by
    rw [List.reverse_append, List.takeWhile_append_of_pos]
    · rw [List.reverse_append, List.reverse_singleton, List.singleton_append,
        List.takeWhile_cons_of_neg (by simp [hc]), List.append_nil]
    · intro d hd
      exact Nat.isDigit_of_mem_toDigits (by decide) (by decide) (List.mem_reverse.mp hd)
  have hdigits := hrun s n
  rw [h, hrun t m, List.reverse_inj] at hdigits
  rw [hdigits] at h
  exact ⟨List.append_cancel_right (List.append_cancel_right h), (toDigits_inj hdigits).symm⟩

theorem typestr_inj {d e : NpDType} (hd : d.hasIdentity = true) (hv : d.kindChar ≠ 'V')
    (h : d.typestr = e.typestr) : d = e := by
  cases d with
  | numeric k s => cases k <;> cases hd
  | void => exact absurd rfl hv
  | datetime64 u =>
    cases e with
    | numeric k s => cases k <;> cases s <;> simp [typestr, NumKind.letter] at h
    | datetime64 v => simp only [typestr, List.cons.injEq, true_and] at h; rw [unitSuffix_inj h]
    | _ => simp [typestr] at h
  | timedelta64 u =>
    cases e with
    | numeric k s => cases k <;> cases s <;> simp [typestr, NumKind.letter] at h
    | timedelta64 v => simp only [typestr, List.cons.injEq, true_and] at h; rw [unitSuffix_inj h]
    | _ => simp [typestr] at h
  | bytes n =>
    cases e with
    | numeric k s => cases k <;> cases s <;> simp [typestr, NumKind.letter] at h
    | bytes m => simp only [typestr, List.cons.injEq, true_and] at h; rw [toDigits_inj h]
    | _ => simp [typestr] at h
  | str n =>
    cases e with
    | numeric k s => cases k <;> cases s <;> simp [typestr, NumKind.letter] at h
    | str m => simp only [typestr, List.cons.injEq, true_and] at h; rw [toDigits_inj h]
    | _ => simp [typestr] at h

theorem eq_void {d : NpDType} (h : d.kindChar = 'V') : ∃ fs n, d = void fs n := by
  cases d with
  | void fs n => exact ⟨fs, n, rfl⟩
  | numeric k s => cases k <;> simp [kindChar, NumKind.letter] at h
  | _ => simp [kindChar] at h

theorem repr_inj {d e : NpDType} (hd : d.hasIdentity = true) (he : e.hasIdentity = true)
    (h : d.repr = e.repr) : d = e := by
  have hother {d : NpDType} (hv : d.kindChar ≠ 'V') :
      d.repr = ['d', 't', 'y', 'p', 'e', '(', '\''] ++ d.typestr ++ ['\'', ')'] := by
    cases d with
    | void => exact absurd rfl hv
    | _ => rfl
  have hvoid {fs : String} {n : Nat} {e : NpDType} (hv : e.kindChar ≠ 'V') : (void fs n).repr ≠ e.repr := by
    rw [hother hv, repr]
    intro h
    have := congrArg (fun l => l[6]?) h
    simp at this
  by_cases hv : d.kindChar = 'V'
  · obtain ⟨fs, n, rfl⟩ := eq_void hv
    by_cases hw : e.kindChar = 'V'
    · obtain ⟨gs, m, rfl⟩ := eq_void hw
      have hs : sizeKey = sizeKey.dropLast ++ [' '] := rfl
      simp only [repr, List.append_left_inj, List.append_right_inj] at h
      rw [hs, ← List.append_assoc, ← List.append_assoc] at h
      obtain ⟨hf, rfl⟩ := append_digits_inj (by decide) h
      rw [String.toList_inj.mp (List.append_cancel_right hf)]
    · exact absurd h (hvoid hw)
  · by_cases hw : e.kindChar = 'V'
    · obtain ⟨gs, m, rfl⟩ := eq_void hw
      exact absurd h.symm (hvoid hv)
    · rw [hother hv, hother hw, List.append_left_inj, List.append_right_inj] at h
      exact typestr_inj hd hv h

end NpDType

end NumbaCudaMlir
