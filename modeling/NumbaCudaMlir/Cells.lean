import Mathlib.Algebra.Order.Ring.Abs
import Mathlib.Data.List.Pairwise
import NumbaCudaMlir.ByteMemory
import NumbaCudaMlir.MachineInt

/-!
# Cells of a memory

Lists of addresses of cells of one size, read and written one after the other.
What is read through a decoding that tells one from every multiple of 256 shows
which addresses were read.
-/

namespace ByteMemory

section
variable {n : Nat}

def storeAll (m : Memory) (n : Nat) : List (BitVec 64) → List Nat → Memory
  | a :: as, x :: xs => storeAll (store m a n x) n as xs
  | _, _ => m

def Separate (n : Nat) (as : List (BitVec 64)) : Prop := as.Pairwise fun a b => Apart a n b n

def Outside (n : Nat) (as : List (BitVec 64)) (b : BitVec 64) : Prop := ∀ a ∈ as, n ≤ (b - a).toNat

theorem storeAll_outside {b : BitVec 64} : ∀ {as : List (BitVec 64)} (m : Memory) (xs : List Nat), Outside n as b →
    storeAll m n as xs b = m b
  | [], _, _, _ => rfl
  | _ :: _, _, [], _ => rfl
  | a :: as, m, x :: xs, h => by
    rw [storeAll, storeAll_outside _ _ fun c hc => h c (by simp [hc])]
    exact store_of_le (h a (by simp)) x

theorem load_storeAll_of_apart (hn : n ≤ 2 ^ 64) {b : BitVec 64} : ∀ {as : List (BitVec 64)} (m : Memory) (xs : List Nat),
    (∀ a ∈ as, Apart a n b n) → load (storeAll m n as xs) b n = load m b n
  | [], _, _, _ => rfl
  | _ :: _, _, [], _ => rfl
  | a :: as, m, x :: xs, h => by
    rw [storeAll, load_storeAll_of_apart hn _ _ fun c hc => h c (by simp [hc])]
    exact load_store_of_apart hn (h a (by simp)) x

theorem Apart.symm {a b : BitVec 64} (h : Apart a n b n) : Apart b n a n := fun i hi j hj he => h j hj i hi he.symm

/-- **A store is read back** from separate cells. -/
theorem loads_storeAll (hn : n ≤ 2 ^ 64) : ∀ {as : List (BitVec 64)} {xs : List Nat} (m : Memory), Separate n as →
    xs.length = as.length → as.map (fun a => load (storeAll m n as xs) a n) = xs.map (· % 256 ^ n)
  | [], [], _, _, _ => rfl
  | a :: as, x :: xs, m, hs, hl => by
    obtain ⟨hhead, htail⟩ := List.pairwise_cons.mp hs
    have hfirst : load (storeAll (store m a n x) n as xs) a n = x % 256 ^ n := by
      rw [load_storeAll_of_apart hn _ _ fun b hb => (hhead b hb).symm, load_store_self m a hn]
    rw [storeAll, List.map_cons, List.map_cons, hfirst, loads_storeAll hn _ htail (by simpa using hl)]

/-! ## Which addresses are read -/

def spot (a : BitVec 64) : Memory := fun b => if b = a then 1 else 0

theorem load_spot_mod {a b : BitVec 64} (hn : 0 < n) : load (spot a) b n % 256 = if b = a then 1 else 0 := by
  have h := load_div_mod (m := spot a) (a := b) hn
  simp only [Nat.pow_zero, Nat.div_one, BitVec.add_zero] at h
  rw [h, spot]
  by_cases he : b = a <;> simp [he]

theorem load_spot_self {a : BitVec 64} (hn : 0 < n) (hn' : n ≤ 2 ^ 64) : load (spot a) a n = 1 := by
  obtain ⟨k, rfl⟩ := Nat.exists_eq_add_of_lt hn
  rw [Nat.zero_add]
  rw [Nat.zero_add] at hn'
  clear hn
  induction k with
  | zero => simp [load, spot]
  | succ k ih =>
    have hne : a + BitVec.ofNat 64 (k + 1) ≠ a := by
      intro h
      have := (add_ofNat_inj a (j := k + 1) (k := 0) (by omega) (by decide)).mp (by simpa using h)
      omega
    rw [load, ih (by omega), spot, if_neg hne]
    simp

/-- **What is read names the addresses.** -/
theorem eq_of_loads {α : Type} {f : Nat → α} (hn : 0 < n) (hn' : n ≤ 2 ^ 64) (hf : ∀ y, y % 256 = 0 → f y ≠ f 1)
    {as bs : List (BitVec 64)} (h : ∀ m, as.map (fun a => f (load m a n)) = bs.map fun b => f (load m b n)) : as = bs := by
  have hl : as.length = bs.length := by simpa using congrArg List.length (h (spot 0))
  apply List.ext_getElem hl
  intro k hk hk'
  by_contra hne
  have hm : f (load (spot as[k]) as[k] n) = f (load (spot as[k]) bs[k] n) := by
    have := congrArg (·[k]?) (h (spot as[k]))
    simpa [hk, hk'] using this
  rw [load_spot_self hn hn'] at hm
  refine hf (load (spot as[k]) bs[k] n) ?_ hm.symm
  rw [load_spot_mod hn, if_neg fun he => hne he.symm]

/-! ## Cells at multiples of their size -/

theorem add_ofInt_inj (a : BitVec 64) {x y : Int} : a + BitVec.ofInt 64 x = a + BitVec.ofInt 64 y ↔ (2 : Int) ^ 64 ∣ x - y := by
  rw [← MachineInt.ofInt_eq_ofInt_iff]
  constructor
  · intro h
    have := congrArg (· - a) h
    simpa only [BitVec.add_comm a, BitVec.add_sub_cancel] using this
  · intro h
    rw [h]

theorem add_ofInt_add_ofNat (a : BitVec 64) (x : Int) (k : Nat) :
    a + BitVec.ofInt 64 x + BitVec.ofNat 64 k = a + BitVec.ofInt 64 (x + k) := by
  rw [BitVec.add_assoc, BitVec.ofInt_add, BitVec.ofInt_natCast]

theorem apart_of_multiples {a : BitVec 64} {d e : Int} (hn : n ≤ 2 ^ 63) (hne : d ≠ e) (hs : |(n : Int) * (d - e)| < 2 ^ 63) :
    Apart (a + BitVec.ofInt 64 (n * d)) n (a + BitVec.ofInt 64 (n * e)) n := by
  intro i hi j hj h
  rw [add_ofInt_add_ofNat, add_ofInt_add_ofNat, add_ofInt_inj] at h
  have hsplit : (n : Int) * d + i - (n * e + j) = n * (d - e) + (i - j) := by ring
  rw [hsplit] at h
  obtain ⟨hlo, hhi⟩ := abs_lt.mp hs
  have hzero : (n : Int) * (d - e) + (i - j) = 0 := by
    apply Int.eq_zero_of_abs_lt_dvd h
    rw [abs_lt]
    constructor <;> omega
  have hpos : (1 : Int) ≤ |d - e| := Int.one_le_abs (sub_ne_zero.mpr hne)
  have hbig : (n : Int) ≤ |(n : Int) * (d - e)| := by
    rw [abs_mul, Nat.abs_cast]
    nlinarith
  rw [show (n : Int) * (d - e) = j - i by omega] at hbig
  have : |(j : Int) - i| < n := by
    rw [abs_lt]
    constructor <;> omega
  omega

/-- **Cells side by side** are those of a stride where they start together and
the stride is one, if it matters. -/
theorem lanes_eq_iff (hn : 0 < n) (hn' : n ≤ 2 ^ 62) {a : BitVec 64} {x y s : Int} {k : Nat} (hk : 0 < k)
    (hs : 2 ≤ k → |(n : Int) * s| < 2 ^ 63) :
    (∀ i < k, a + BitVec.ofInt 64 (n * x) + BitVec.ofInt 64 (n * (i : Nat)) = a + BitVec.ofInt 64 (n * (y + i * s))) ↔
      a + BitVec.ofInt 64 (n * x) = a + BitVec.ofInt 64 (n * y) ∧ (k = 1 ∨ s = 1) := by
  have hlane : ∀ i : Nat, a + BitVec.ofInt 64 (n * x) + BitVec.ofInt 64 (n * i) = a + BitVec.ofInt 64 (n * (y + i * s)) ↔
      (2 : Int) ^ 64 ∣ n * x - n * y + i * (n * (1 - s)) := by
    intro i
    rw [BitVec.add_assoc, ← BitVec.ofInt_add, add_ofInt_inj]
    rw [show (n : Int) * x + n * i - n * (y + i * s) = n * x - n * y + i * (n * (1 - s)) by ring]
  constructor
  · intro h
    have hstart : (2 : Int) ^ 64 ∣ n * x - n * y := by simpa using (hlane 0).mp (h 0 hk)
    refine ⟨(add_ofInt_inj a).mpr hstart, ?_⟩
    by_cases h1 : k = 1
    · exact .inl h1
    · right
      have hnext : (2 : Int) ^ 64 ∣ n * (1 - s) := by
        have := (hlane 1).mp (h 1 (by omega))
        rw [Int.natCast_one, one_mul] at this
        exact (Int.dvd_add_right hstart).mp this
      have hsmall := abs_lt.mp (hs (by omega))
      have hzero : (n : Int) * (1 - s) = 0 := by
        apply Int.eq_zero_of_abs_lt_dvd hnext
        rw [Int.mul_sub, Int.mul_one, abs_lt]
        constructor <;> omega
      rcases Int.mul_eq_zero.mp hzero with h0 | h0 <;> omega
  · rintro ⟨hstart, hone⟩ i hi
    rw [hlane]
    refine Int.dvd_add ((add_ofInt_inj a).mp hstart) ?_
    rcases hone with rfl | rfl
    · rw [show i = 0 by omega]
      simp
    · simp

end

end ByteMemory
