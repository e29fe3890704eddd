import Mathlib.Data.Nat.Basic
import Mathlib.Tactic.Ring
import Mathlib.Tactic.Linarith

/-!
# Byte-addressed memory

Little-endian loads and stores of ranges of bytes in a memory with 64-bit
addresses.
-/

namespace ByteMemory

abbrev Memory := BitVec 64 → BitVec 8

def load (m : Memory) (a : BitVec 64) : Nat → Nat
  | 0 => 0
  | n + 1 => load m a n + 256 ^ n * (m (a + BitVec.ofNat 64 n)).toNat

def store (m : Memory) (a : BitVec 64) (n x : Nat) : Memory := fun b =>
  if (b - a).toNat < n then BitVec.ofNat 8 (x / 256 ^ (b - a).toNat) else m b

/-! ## Addresses -/

theorem add_ofNat_sub_toNat (a : BitVec 64) {k : Nat} (hk : k < 2 ^ 64) : (a + BitVec.ofNat 64 k - a).toNat = k := by
  rw [BitVec.add_comm, BitVec.add_sub_cancel, BitVec.toNat_ofNat, Nat.mod_eq_of_lt hk]

theorem add_distance (a b : BitVec 64) : a + BitVec.ofNat 64 (b - a).toNat = b :=
  calc a + BitVec.ofNat 64 (b - a).toNat = a + (b - a) := by rw [BitVec.ofNat_toNat, BitVec.setWidth_eq]
    _ = b := by rw [BitVec.add_comm, BitVec.sub_add_cancel]

theorem add_ofNat_add (a : BitVec 64) (j k : Nat) : a + BitVec.ofNat 64 j + BitVec.ofNat 64 k = a + BitVec.ofNat 64 (j + k) := by
  rw [BitVec.add_assoc, ← BitVec.ofNat_add]

theorem add_ofNat_inj (a : BitVec 64) {j k : Nat} (hj : j < 2 ^ 64) (hk : k < 2 ^ 64) :
    a + BitVec.ofNat 64 j = a + BitVec.ofNat 64 k ↔ j = k := by
  constructor
  · intro h
    rw [← add_ofNat_sub_toNat a hj, h, add_ofNat_sub_toNat a hk]
  · rintro rfl
    rfl

theorem sub_toNat_lt_iff {a b : BitVec 64} {n : Nat} (hn : n ≤ 2 ^ 64) : (b - a).toNat < n ↔ ∃ k < n, b = a + BitVec.ofNat 64 k := by
  constructor
  · exact fun h => ⟨_, h, (add_distance a b).symm⟩
  · rintro ⟨k, hk, rfl⟩
    rwa [add_ofNat_sub_toNat a (by omega)]

/-! ## Loads -/

theorem load_lt (m : Memory) (a : BitVec 64) : ∀ n, load m a n < 256 ^ n
  | 0 => by simp [load]
  | n + 1 => by
    have ih := load_lt m a n
    have hb : (m (a + BitVec.ofNat 64 n)).toNat < 256 := (m _).isLt
    have := Nat.mul_le_mul_left (256 ^ n) (show (m (a + BitVec.ofNat 64 n)).toNat + 1 ≤ 256 by omega)
    rw [load, Nat.pow_succ]
    rw [Nat.mul_add] at this
    omega

theorem load_div_mod {m : Memory} {a : BitVec 64} : ∀ {n k : Nat}, k < n → load m a n / 256 ^ k % 256 = (m (a + BitVec.ofNat 64 k)).toNat
  | n + 1, k, hk => by
    have hb : (m (a + BitVec.ofNat 64 n)).toNat < 256 := (m _).isLt
    rw [load]
    rcases Nat.lt_succ_iff_lt_or_eq.mp hk with hlt | rfl
    · obtain ⟨d, rfl⟩ := Nat.exists_eq_add_of_lt hlt
      rw [show 256 ^ (k + d + 1) * (m (a + BitVec.ofNat 64 (k + d + 1))).toNat =
        256 ^ k * (256 * (256 ^ d * (m (a + BitVec.ofNat 64 (k + d + 1))).toNat)) by ring,
        Nat.add_mul_div_left _ _ (Nat.pow_pos (by decide)), Nat.add_mul_mod_self_left]
      exact load_div_mod (by omega)
    · rw [Nat.add_mul_div_left _ _ (Nat.pow_pos (by decide)), Nat.div_eq_of_lt (load_lt m a k), Nat.zero_add, Nat.mod_eq_of_lt hb]

theorem load_congr {m m' : Memory} {a b : BitVec 64} : ∀ {n : Nat}, (∀ k < n, m (a + BitVec.ofNat 64 k) = m' (b + BitVec.ofNat 64 k)) →
    load m a n = load m' b n
  | 0, _ => rfl
  | n + 1, h => by rw [load, load, load_congr fun k hk => h k (by omega), h n (by omega)]

theorem load_eq_iff {m m' : Memory} {a b : BitVec 64} {n : Nat} :
    load m a n = load m' b n ↔ ∀ k < n, m (a + BitVec.ofNat 64 k) = m' (b + BitVec.ofNat 64 k) := by
  constructor
  · intro h k hk
    apply BitVec.eq_of_toNat_eq
    rw [← load_div_mod hk, ← load_div_mod hk, h]
  · exact load_congr

/-! ## Stores -/

theorem store_of_le {m : Memory} {a b : BitVec 64} {n : Nat} (h : n ≤ (b - a).toNat) (x : Nat) : store m a n x b = m b :=
  if_neg (by omega)

theorem store_at (m : Memory) (a : BitVec 64) {n k : Nat} (hk : k < n) (hn : n ≤ 2 ^ 64) (x : Nat) :
    store m a n x (a + BitVec.ofNat 64 k) = BitVec.ofNat 8 (x / 256 ^ k) := by
  rw [store, add_ofNat_sub_toNat a (by omega), if_pos hk]

theorem load_store_self (m : Memory) (a : BitVec 64) {n : Nat} (hn : n ≤ 2 ^ 64) (x : Nat) : load (store m a n x) a n = x % 256 ^ n := by
  have hprefix : ∀ k, k ≤ n → load (store m a n x) a k = x % 256 ^ k := by
    intro k
    induction k with
    | zero => intro _; simp [load, Nat.mod_one]
    | succ k ih =>
      intro hk
      rw [load, ih (by omega), store_at m a (by omega) hn, BitVec.toNat_ofNat, Nat.mod_pow_succ (b := 256)]
  exact hprefix n (le_refl n)

/-- Two ranges that share no byte. -/
def Apart (a : BitVec 64) (n : Nat) (b : BitVec 64) (k : Nat) : Prop :=
  ∀ i < n, ∀ j < k, a + BitVec.ofNat 64 i ≠ b + BitVec.ofNat 64 j

theorem load_store_of_apart {m : Memory} {a b : BitVec 64} {n k : Nat} (hn : n ≤ 2 ^ 64) (h : Apart a n b k) (x : Nat) :
    load (store m a n x) b k = load m b k := by
  refine load_congr fun j hj => store_of_le ?_ x
  by_contra hlt
  obtain ⟨i, hi, he⟩ := (sub_toNat_lt_iff hn).mp (Nat.lt_of_not_le hlt)
  exact h i hi j hj he.symm

theorem store_load_at (m m' : Memory) (a s : BitVec 64) {n k : Nat} (hk : k < n) (hn : n ≤ 2 ^ 64) :
    store m a n (load m' s n) (a + BitVec.ofNat 64 k) = m' (s + BitVec.ofNat 64 k) := by
  apply BitVec.eq_of_toNat_eq
  rw [store_at m a hk hn, BitVec.toNat_ofNat, ← load_div_mod hk]

end ByteMemory
