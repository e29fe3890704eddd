import NumbaCudaMlir.Convert
import NumbaCudaMlir.KernelError
import NumbaCudaMlir.PyRange

/-!
# The range object

`range` in a kernel keeps five integers of one width: the start, the stop, the
step, how many values are left and the next one. The width is the widest of the
three operands, all of which are extended by their sign, whatever their type
says; the count is worked out in 64 bits.
-/

namespace NumbaCudaMlir

namespace RangeObject

open MachineInt

structure Operand where
  ty : IntType
  bits : BitVec ty.bits
  deriving DecidableEq

def Operand.value (x : Operand) : Int := MachineInt.value x.ty.signed x.bits

/-- The arguments of the three overloads of `range`. -/
inductive Args where
  | stop (stop : Operand)
  | startStop (start stop : Operand)
  | startStopStep (start stop step : Operand)

/-- An MLIR integer. -/
structure Signless where
  width : Nat
  bits : BitVec width
  deriving DecidableEq

def intOf (x : Operand) : Signless := ⟨x.ty.bits, convertInteger (some true) x.ty.bits x.bits⟩

def constantOf (n : Int) (ty : IntType) : Signless := ⟨ty.bits, BitVec.ofInt ty.bits n⟩

def getRangeObject : Args → Signless × Signless × Signless
  | .stop stop => (constantOf 0 stop.ty, intOf stop, constantOf 1 stop.ty)
  | .startStop start stop => (intOf start, intOf stop, constantOf 1 stop.ty)
  | .startStopStep start stop step => (intOf start, intOf stop, intOf step)

def unifyIntegerTypes (values : List Signless) : Nat := values.foldl (fun width v => max width v.width) 0

structure Cells (w : Nat) where
  start : BitVec w
  stop : BitVec w
  step : BitVec w
  count : BitVec w
  iter : BitVec w
  deriving DecidableEq

/-- `arith.divui`, which is undefined by zero. -/
def divui {w : Nat} (x y : BitVec w) : Option (BitVec w) := if y = 0#w then none else some (x / y)

def tripCount (start stop step : BitVec 64) : Option (BitVec 64) := do
  let diff := stop - start
  let negDiff := 0#64 - diff
  let negStep := 0#64 - step
  let stepPositive := (0#64).slt step
  -- Positive step: ceildiv(diff, step) if diff > 0 else 0
  let posNumerator := diff + (step - 1#64)
  let posCount ← divui posNumerator step
  let posResult := if (0#64).slt diff then posCount else 0#64
  -- Negative step: ceildiv(neg_diff, neg_step) if neg_diff > 0 else 0
  let negNumerator := negDiff + (negStep - 1#64)
  let negCount ← divui negNumerator negStep
  let negResult := if (0#64).slt negDiff then negCount else 0#64
  return if stepPositive then posResult else negResult

/-- What constructing the object does: the kernel's error code, and the object
unless the run is undefined. -/
structure Construction (w : Nat) where
  errorCode : Nat
  object : Option (Cells w)

/-- `RangeObject.__init__`; an error code is stored only over no error. -/
def construct (errorCode : Nat) (start stop step : Signless) :
    Construction (unifyIntegerTypes [start, stop, step]) :=
  let w := unifyIntegerTypes [start, stop, step]
  let startVal := convertInteger (some true) w start.bits
  let stopVal := convertInteger (some true) w stop.bits
  let stepVal := convertInteger (some true) w step.bits
  let wide := fun x : BitVec w => convertInteger (some true) 64 x
  ⟨if stepVal = 0#w then setErrorCode ((kernelErrorCodes .zeroDivisionError).get rfl) errorCode else errorCode,
    (tripCount (wide startVal) (wide stopVal) (wide stepVal)).map fun count =>
      ⟨startVal, stopVal, stepVal, convertInteger (some true) w count, startVal⟩⟩

def lowerRange (errorCode : Nat) (args : Args) : Σ w, Construction w :=
  let (start, stop, step) := getRangeObject args
  ⟨_, construct errorCode start stop step⟩

/-- What `next` returns: the value and whether it is one. -/
structure IterNext (w : Nat) where
  value : BitVec w
  isValid : BitVec w
  deriving DecidableEq

variable {w : Nat}

def next (r : Cells w) : IterNext w × Cells w :=
  let isValid := (0#w).slt r.count
  (⟨r.iter, convertInteger none w (BitVec.ofBool isValid)⟩,
    { r with
      count := if isValid then r.count - 1#w else r.count
      iter := if isValid then r.iter + r.step else r.iter })

def pairSecond (i : IterNext w) : BitVec 1 := convertInteger none 1 i.isValid

/-- The value of the `k`-th call of `next`, when the call says that it is one. -/
def yielded (r : Cells w) (k : Nat) : Option (BitVec w) :=
  let i := (next ((fun r => (next r).2)^[k] r)).1
  if pairSecond i = 1 then some i.value else none

end RangeObject

end NumbaCudaMlir

/-!
## Ranges against Python's

The object counts the values of a range of its own: of the operands read as
signed, with the span of start and stop taken in 64 bits and fewer values than
half of those of its width. It is Python's range where the two have as many
values, and where the start, and with a second value the step, survive being
read as signed.
-/

namespace NumbaCudaMlir

namespace RangeObject

open MachineInt

/-- The operand read as signed, whatever its type says. -/
def Operand.signed (x : Operand) : Int := x.bits.toInt

/-! ## Python's range -/

section
variable (read : Operand → Int)

/-- The start, stop and step of a range, each operand as `read` reads it. -/
def Args.startOf : Args → Int
  | .stop _ => 0
  | .startStop x _ | .startStopStep x _ _ => read x

def Args.stopOf : Args → Int
  | .stop x | .startStop _ x | .startStopStep _ x _ => read x

def Args.stepOf : Args → Int
  | .stop _ | .startStop _ _ => 1
  | .startStopStep _ _ x => read x

end

def Args.elements (args : Args) : List Int :=
  PyRange.elements (args.startOf Operand.value) (args.stopOf Operand.value) (args.stepOf Operand.value)

/-- With a step the object yields the elements of the range in order and then
nothing more; without one it yields nothing and the kernel reports it. -/
def IteratesLikePython (args : Args) : Prop :=
  ∀ code, ∃ r, (lowerRange code args).2.object = some r ∧
    if args.stepOf Operand.value = 0 then
      (lowerRange code args).2.errorCode = setErrorCode 5 code ∧ ∀ k, yielded r k = none
    else
      (lowerRange code args).2.errorCode = code ∧ ∀ k, yielded r k = args.elements[k]?.map (BitVec.ofInt _)

/-! ## The trip count -/

/-- The values of `range(0, d, p)`, but none when negating `d` in 64 bits does
not make it positive. -/
def spanLength (d p : Int) : Nat := if d = -2 ^ 63 then 0 else PyRange.len 0 d p

theorem zero_slt {w : Nat} (x : BitVec w) : (0#w).slt x = true ↔ 0 < x.toInt := by
  simp [BitVec.slt]

theorem ceilDiv_toNat {d p : BitVec 64} (hd : 0 < d.toInt) (hp : 0 < p.toNat) (hp' : p.toNat ≤ 2 ^ 63) :
    ((d + (p - 1#64)) / p).toNat = PyRange.len 0 d.toNat p.toNat := by
  have hd' : 0 < d.toNat ∧ d.toNat < 2 ^ 63 := by
    have := toInt_cases d
    have := BitVec.toInt_lt (x := d)
    omega
  have hnum : (d + (p - 1#64)).toNat = d.toNat - 1 + p.toNat := by
    have h1 : (1#64).toNat = 1 := rfl
    rw [BitVec.toNat_add, BitVec.toNat_sub, h1]
    omega
  have hsub : (d.toNat : Int) - 0 - 1 = ((d.toNat - 1 : Nat) : Int) := by omega
  rw [BitVec.toNat_udiv, hnum, Nat.add_div_right _ hp, PyRange.len, if_pos (by omega), if_pos (by omega), hsub]
  norm_cast

theorem tripCount_eq (start stop : BitVec 64) {step : BitVec 64} (h : step ≠ 0#64) :
    ∃ count, tripCount start stop step = some count ∧ count.toNat = spanLength (stop - start).toInt step.toInt := by
  generalize hd : stop - start = diff
  have hneg : -step ≠ 0#64 := by
    simpa using h
  simp only [tripCount, hd, BitVec.zero_sub, divui, if_neg h, if_neg hneg, Option.bind_eq_bind, Option.bind_some]
  refine ⟨_, rfl, ?_⟩
  have hz : step.toInt ≠ 0 := fun hz => h (BitVec.toInt_inj.mp (by simpa using hz))
  have hs := toInt_cases step
  have hdc := toInt_cases diff
  simp only [zero_slt]
  by_cases hp : 0 < step.toInt
  · rw [if_pos hp]
    by_cases hdp : 0 < diff.toInt
    · have hlt := BitVec.toInt_lt (x := step)
      rw [if_pos hdp, ceilDiv_toNat hdp (by omega) (by omega), spanLength, if_neg (by omega)]
      congr 1 <;> omega
    · rw [if_neg hdp, spanLength, (PyRange.len_eq_zero_iff hz 0 diff.toInt).mpr (.inl ⟨hp, by omega⟩), ite_self]
      rfl
  · rw [if_neg hp]
    have hle := BitVec.le_toInt step
    have hdle := BitVec.le_toInt diff
    have hdneg : (-diff).toInt = if diff.toInt = -2 ^ 63 then -2 ^ 63 else -diff.toInt := by
      rw [BitVec.toInt_neg]
      split
      · rename_i he
        rw [he]
        rfl
      · have := BitVec.toInt_lt (x := diff)
        exact Int.bmod_eq_of_le_mul_two (by omega) (by omega)
    have hstep : (-step).toNat = -step.toInt := by
      rw [BitVec.toNat_neg]
      omega
    rw [hdneg]
    by_cases hmin : diff.toInt = -2 ^ 63
    · rw [if_pos hmin, if_neg (by omega), spanLength, if_pos hmin]
      rfl
    · rw [if_neg hmin, spanLength, if_neg hmin]
      by_cases hdn : 0 < -diff.toInt
      · have hpos : 0 < (-diff).toInt := by rw [hdneg, if_neg hmin]; exact hdn
        have hdiff : ((-diff).toNat : Int) = -diff.toInt := by
          have := toInt_cases (-diff)
          rw [hdneg, if_neg hmin] at this
          omega
        rw [if_pos hdn, ceilDiv_toNat hpos (by omega) (by omega), PyRange.len_neg (by omega : step.toInt < 0), hdiff, hstep]
        rfl
      · rw [if_neg hdn, (PyRange.len_eq_zero_iff hz 0 diff.toInt).mpr (.inr ⟨by omega, by omega⟩)]
        rfl

/-! ## Calls of `next` -/

variable {w : Nat}

def remaining (r : Cells w) : Nat := r.count.toInt.toNat

def advance (r : Cells w) (k : Nat) : Cells w :=
  { r with count := r.count - BitVec.ofNat w k, iter := r.iter + BitVec.ofNat w k * r.step }

theorem toInt_sub_ofNat {x : BitVec w} {k : Nat} (h : k ≤ x.toInt.toNat) : (x - BitVec.ofNat w k).toInt = x.toInt - k := by
  have hlt := BitVec.toInt_lt (x := x)
  have hle := BitVec.le_toInt x
  by_cases hk : k = 0
  · subst hk
    simp
  · have hw : 0 < w := by
      refine Nat.pos_of_ne_zero fun hw => ?_
      subst hw
      have : x.toInt = 0 := by simp [BitVec.of_length_zero]
      omega
    have h2 := two_pow_pred hw
    have hk' : (BitVec.ofNat w k).toInt = k := by
      rw [← BitVec.ofInt_natCast]
      exact (value_ofInt_iff hw true k).mpr (inRange_signed.mpr ⟨by omega, by omega⟩)
    rw [BitVec.toInt_sub, hk']
    exact Int.bmod_eq_of_le_mul_two (by push_cast; omega) (by push_cast; omega)

theorem toInt_count_advance {r : Cells w} {k : Nat} (h : k ≤ remaining r) : (advance r k).count.toInt = r.count.toInt - k :=
  toInt_sub_ofNat h

theorem next_advance_of_lt {r : Cells w} {k : Nat} (h : k < remaining r) : (next (advance r k)).2 = advance r (k + 1) := by
  have hpos : (0#w).slt (advance r k).count = true := by
    rw [zero_slt, toInt_count_advance (Nat.le_of_lt h)]
    unfold remaining at h
    omega
  have hsucc : BitVec.ofNat w (k + 1) = BitVec.ofNat w k + 1#w := BitVec.ofNat_add k 1
  simp only [next, hpos, if_true]
  simp only [advance, hsucc]
  congr 1
  · rw [BitVec.sub_sub]
  · rw [BitVec.add_mul, BitVec.one_mul, BitVec.add_assoc]

theorem next_advance_remaining (r : Cells w) : (next (advance r (remaining r))).2 = advance r (remaining r) := by
  have hneg : ¬ (0#w).slt (advance r (remaining r)).count = true := by
    rw [zero_slt, toInt_count_advance (Nat.le_refl _), remaining]
    omega
  simp only [next, hneg]
  rfl

theorem run_next (r : Cells w) (k : Nat) : (fun r => (next r).2)^[k] r = advance r (min k (remaining r)) := by
  induction k with
  | zero => simp [advance]
  | succ k ih =>
    rw [Function.iterate_succ_apply', ih]
    by_cases hk : k < remaining r
    · rw [Nat.min_eq_left hk.le, Nat.min_eq_left hk]
      exact next_advance_of_lt hk
    · rw [Nat.min_eq_right (by omega), Nat.min_eq_right (by omega)]
      exact next_advance_remaining r

theorem pairSecond_next (hw : 1 < w) (r : Cells w) : pairSecond (next r).1 = 1 ↔ 0 < r.count.toInt := by
  have hstored : ∀ b : Bool, convertInteger none w (BitVec.ofBool b) ≠ 0#w ↔ b = true := by
    intro b
    rw [convertInteger_eq (.inl (by omega))]
    cases b with
    | false => simp
    | true =>
      have : w ≠ 0 := by omega
      simpa [← BitVec.toNat_inj] using this
  rw [← zero_slt, ← hstored, pairSecond, convertInteger_bool hw, next]
  cases h : (convertInteger none w (BitVec.ofBool ((0#w).slt r.count)) != 0#w) <;> simp_all

theorem yielded_eq (hw : 1 < w) (r : Cells w) (k : Nat) :
    yielded r k = if k < remaining r then some (r.iter + BitVec.ofNat w k * r.step) else none := by
  simp only [yielded, run_next, pairSecond_next hw]
  rw [toInt_count_advance (Nat.min_le_right _ _)]
  by_cases hk : k < remaining r
  · have : 0 < r.count.toInt - (min k (remaining r) : Nat) := by
      unfold remaining at hk ⊢
      omega
    rw [if_pos hk, if_pos this, Nat.min_eq_left hk.le]
    rfl
  · have : ¬ 0 < r.count.toInt - (min k (remaining r) : Nat) := by
      unfold remaining at hk ⊢
      omega
    rw [if_neg hk, if_neg this]

/-! ## The count -/

theorem getRangeObject_widths (args : Args) :
    ∃ a b c : Width, (getRangeObject args).1.width = a.bits ∧ (getRangeObject args).2.1.width = b.bits ∧
      (getRangeObject args).2.2.width = c.bits := by
  cases args with
  | stop stop => exact ⟨_, _, _, rfl, rfl, rfl⟩
  | startStop start stop => exact ⟨_, _, _, rfl, rfl, rfl⟩
  | startStopStep start stop step => exact ⟨_, _, _, rfl, rfl, rfl⟩

theorem convertInteger_signed {v w : Nat} (hw : 1 < w) (x : BitVec v) : convertInteger (some true) w x = BitVec.ofInt w x.toInt :=
  convertInteger_eq (.inl (by omega)) x

theorem toInt_convertInteger {v w : Nat} (h : v ≤ w) (hw : 1 < w) (x : BitVec v) :
    (convertInteger (some true) w x).toInt = x.toInt := by
  rw [convertInteger_signed hw]
  exact BitVec.toInt_signExtend_of_le h

/-- The values that the object counts, from the signed readings of its operands. -/
def signedLength (w : Nat) (start stop step : Int) : Nat :=
  let n := spanLength ((stop - start).bmod (2 ^ 64)) step
  if n < 2 ^ (w - 1) then n else 0

theorem spanLength_le {step : Int} (h : step ≠ 0) (d : Int) : spanLength d step ≤ d.natAbs := by
  unfold spanLength
  split
  · omega
  · simpa using PyRange.len_le_natAbs h 0 d

theorem spanLength_lt {w : Nat} (hw : 0 < w) (hw' : w ≤ 64) (start stop : BitVec w) {step : Int} (h : step ≠ 0) :
    spanLength ((stop.toInt - start.toInt).bmod (2 ^ 64)) step < 2 ^ w := by
  refine Nat.lt_of_le_of_lt (spanLength_le h _) ?_
  have h2 := two_pow_pred hw
  have hs := inRange_signed.mp (value_inRange hw true start)
  have he := inRange_signed.mp (value_inRange hw true stop)
  simp only [value_signed] at hs he
  zify
  rcases Nat.lt_or_eq_of_le hw' with hlt | rfl
  · have hpow : (2 : Int) ^ w ≤ 2 ^ 63 := pow_le_pow_right₀ (by decide) (by omega)
    rw [Int.bmod_eq_of_le_mul_two (by push_cast; omega) (by push_cast; omega)]
    exact abs_lt.mpr ⟨by omega, by omega⟩
  · have hl := Int.le_bmod (x := stop.toInt - start.toInt) (m := 2 ^ 64) (by decide)
    have hu := Int.bmod_lt (x := stop.toInt - start.toInt) (m := 2 ^ 64) (by decide)
    exact abs_lt.mpr ⟨by omega, by omega⟩

theorem toInt_toNat_ofNat {w n : Nat} (hw : 0 < w) (h : n < 2 ^ w) :
    (BitVec.ofNat w n).toInt.toNat = if n < 2 ^ (w - 1) then n else 0 := by
  have h2 := two_pow_pred hw
  zify at h
  have hc : ((2 ^ (w - 1) : Nat) : Int) = 2 ^ (w - 1) := by push_cast; rfl
  rcases toInt_cases (BitVec.ofNat w n) with hx | hx <;> rw [BitVec.toNat_ofNat, Nat.mod_eq_of_lt (by exact_mod_cast h)] at hx
  · have := BitVec.toInt_lt (x := BitVec.ofNat w n)
    rw [if_pos (by omega)]
    omega
  · have := BitVec.le_toInt (BitVec.ofNat w n)
    rw [if_neg (by omega)]
    omega

section
variable {start stop step : Signless}

theorem unifyIntegerTypes_eq : unifyIntegerTypes [start, stop, step] = max (max start.width stop.width) step.width := by
  simp [unifyIntegerTypes]

theorem construct_eq {w : Nat} (hw : unifyIntegerTypes [start, stop, step] = w) (hw₁ : 1 < w) (hw₂ : w ≤ 64)
    (h : step.bits.toInt ≠ 0) (code : Nat) :
    ∃ r : Cells (unifyIntegerTypes [start, stop, step]), construct code start stop step = ⟨code, some r⟩ ∧
      r.iter = BitVec.ofInt _ start.bits.toInt ∧ r.step = BitVec.ofInt _ step.bits.toInt ∧
      remaining r = signedLength w start.bits.toInt stop.bits.toInt step.bits.toInt := by
  have hwidths := hw.symm.trans unifyIntegerTypes_eq
  unfold construct
  rw [hw]
  have hwide : ∀ x : Signless, x.width ≤ w →
      (convertInteger (some true) 64 (convertInteger (some true) w x.bits)).toInt = x.bits.toInt := fun x hx => by
    rw [toInt_convertInteger hw₂ (by decide), toInt_convertInteger hx hw₁]
  have hne : ∀ {v : Nat} {x : BitVec v}, x.toInt = step.bits.toInt → x ≠ 0#v := fun hx h0 => h (by rw [← hx, h0, BitVec.toInt_zero])
  obtain ⟨count, hcount, hn⟩ := tripCount_eq (convertInteger (some true) 64 (convertInteger (some true) w start.bits))
    (convertInteger (some true) 64 (convertInteger (some true) w stop.bits)) (hne (hwide step (by omega)))
  rw [BitVec.toInt_sub, hwide start (by omega), hwide stop (by omega), hwide step (by omega)] at hn
  dsimp only
  rw [if_neg (hne (toInt_convertInteger (by omega) hw₁ step.bits)), hcount]
  refine ⟨_, rfl, convertInteger_signed hw₁ _, convertInteger_signed hw₁ _, ?_⟩
  have hlt := spanLength_lt (by omega) hw₂ (start.bits.signExtend w) (stop.bits.signExtend w) h
  rw [BitVec.toInt_signExtend_of_le (by omega), BitVec.toInt_signExtend_of_le (by omega), ← hn] at hlt
  have hlow : convertInteger (some true) w count = BitVec.ofNat w count.toNat := by
    rw [convertInteger_signed hw₁, ← BitVec.ofInt_natCast, ofInt_eq_ofInt_iff]
    rcases toInt_cases count with ⟨-, hc⟩ | ⟨-, hc⟩
    · simp [hc]
    · rw [hc, sub_sub_cancel_left, Int.dvd_neg]
      exact two_pow_dvd_iff.mpr hw₂
  dsimp only [remaining]
  rw [hlow, toInt_toNat_ofNat (by omega) hlt, signedLength, hn]

end

/-! ## The values -/

theorem progressions_agree_iff {w C n : Nat} {s' p' s p : Int} :
    (∀ k : Nat, (if k < C then some (BitVec.ofInt w (s' + k * p')) else none) =
      if k < n then some (BitVec.ofInt w (s + k * p)) else none) ↔
    C = n ∧ (0 < n → (2 : Int) ^ w ∣ s' - s) ∧ (1 < n → (2 : Int) ^ w ∣ p' - p) := by
  constructor
  · intro h
    have hC : C = n := by
      rcases Nat.lt_trichotomy C n with hlt | heq | hgt
      · simpa [hlt] using h C
      · exact heq
      · simpa [hgt] using h n
    subst hC
    have hk : ∀ k, k < C → (2 : Int) ^ w ∣ s' - s + k * (p' - p) := by
      intro k hk
      have := h k
      rw [if_pos hk, if_pos hk, Option.some.injEq, ofInt_eq_ofInt_iff] at this
      rwa [show s' - s + k * (p' - p) = s' + k * p' - (s + k * p) by ring]
    refine ⟨rfl, fun h0 => by simpa using hk 0 h0, fun h1 => ?_⟩
    have h0 := hk 0 (by omega)
    have h1 := hk 1 h1
    rw [Nat.cast_zero, Int.zero_mul, Int.add_zero] at h0
    rw [Nat.cast_one, Int.one_mul] at h1
    exact (Int.dvd_add_right h0).mp h1
  · intro ⟨hC, hs, hp⟩ k
    subst hC
    by_cases hk : k < C
    · rw [if_pos hk, if_pos hk, Option.some.injEq, ofInt_eq_ofInt_iff]
      rw [show s' + k * p' - (s + k * p) = s' - s + k * (p' - p) by ring]
      refine Int.dvd_add (hs (by omega)) ?_
      by_cases h0 : k = 0
      · simp [h0]
      · exact Int.dvd_mul_of_dvd_right (hp (by omega))
    · rw [if_neg hk, if_neg hk]

section
variable (args : Args)

def Args.width : Nat := (lowerRange 0 args).1

theorem width_bounds : 1 < args.width ∧ args.width ≤ 64 := by
  obtain ⟨a, b, c, ha, hb, hc⟩ := getRangeObject_widths args
  have hw : args.width = max (max a.bits b.bits) c.bits := by
    rw [← ha, ← hb, ← hc]
    exact unifyIntegerTypes_eq
  have := a.one_lt_bits
  have := a.bits_le
  have := b.bits_le
  have := c.bits_le
  omega

theorem getRangeObject_start : (getRangeObject args).1.bits.toInt = args.startOf Operand.signed := by
  cases args with
  | stop stop => simp [getRangeObject, constantOf, Args.startOf]
  | startStop start stop => simp [getRangeObject, intOf, convertInteger_self, Args.startOf, Operand.signed]
  | startStopStep start stop step => simp [getRangeObject, intOf, convertInteger_self, Args.startOf, Operand.signed]

theorem getRangeObject_stop : (getRangeObject args).2.1.bits.toInt = args.stopOf Operand.signed := by
  cases args <;> simp [getRangeObject, intOf, convertInteger_self, Args.stopOf, Operand.signed]

theorem getRangeObject_step : (getRangeObject args).2.2.bits.toInt = args.stepOf Operand.signed := by
  have hone : ∀ ty : IntType, (constantOf 1 ty).bits.toInt = 1 := fun ty => by
    cases h : ty.width <;> simp [constantOf, IntType.bits, h, Width.bits]
  cases args with
  | stop stop => exact hone stop.ty
  | startStop start stop => exact hone stop.ty
  | startStopStep start stop step => simp [getRangeObject, intOf, convertInteger_self, Args.stepOf, Operand.signed]

theorem Operand.signed_eq_zero (x : Operand) : x.signed = 0 ↔ x.value = 0 := by
  have hsigned : x.bits.toInt = 0 ↔ x.bits = 0#_ := by rw [← BitVec.toInt_inj, BitVec.toInt_zero]
  have hunsigned : (x.bits.toNat : Int) = 0 ↔ x.bits = 0#_ := by simp [← BitVec.toNat_inj]
  cases h : x.ty.signed with
  | true => rw [Operand.signed, Operand.value, h, value_signed]
  | false => rw [Operand.signed, Operand.value, h, value_unsigned, hsigned, hunsigned]

theorem stepOf_signed_eq_zero : args.stepOf Operand.signed = 0 ↔ args.stepOf Operand.value = 0 := by
  cases args with
  | stop | startStop => rfl
  | startStopStep start stop step => exact step.signed_eq_zero

theorem tripCount_zero (start stop : BitVec 64) : tripCount start stop 0#64 = none := by
  simp [tripCount, divui]

theorem lowerRange_eq (h : args.stepOf Operand.value ≠ 0) (code : Nat) :
    ∃ r : Cells args.width, (lowerRange code args).2 = ⟨code, some r⟩ ∧
      r.iter = BitVec.ofInt args.width (args.startOf Operand.signed) ∧
      r.step = BitVec.ofInt args.width (args.stepOf Operand.signed) ∧
      remaining r = signedLength args.width (args.startOf Operand.signed) (args.stopOf Operand.signed) (args.stepOf Operand.signed) := by
  have hw := width_bounds args
  rw [Ne, ← stepOf_signed_eq_zero, ← getRangeObject_step] at h
  rw [← getRangeObject_start, ← getRangeObject_stop, ← getRangeObject_step]
  exact construct_eq rfl hw.1 hw.2 h code

theorem object_eq_none (h : args.stepOf Operand.value = 0) (code : Nat) : (lowerRange code args).2.object = none := by
  have hstep : (getRangeObject args).2.2.bits = BitVec.ofInt _ 0 := by
    rw [← (stepOf_signed_eq_zero args).mpr h, ← getRangeObject_step, BitVec.ofInt_toInt]
  have hw := width_bounds args
  simp only [Args.width, lowerRange] at hw
  simp only [lowerRange, construct, hstep, convertInteger_signed hw.1, convertInteger_signed (show 1 < 64 by decide)]
  simp [tripCount_zero]

end

/-- **Python's range**: the object iterates as Python does exactly when the step
is not zero, the range of the signed readings is counted with Python's length,
and the start of a nonempty range and the step of one with two values are
read as signed without a change of the bits that are kept. -/
theorem iterates_like_python_iff (args : Args) :
    IteratesLikePython args ↔
      args.stepOf Operand.value ≠ 0 ∧
      signedLength args.width (args.startOf Operand.signed) (args.stopOf Operand.signed) (args.stepOf Operand.signed) =
        args.elements.length ∧
      (0 < args.elements.length → (2 : Int) ^ args.width ∣ args.startOf Operand.signed - args.startOf Operand.value) ∧
      (1 < args.elements.length → (2 : Int) ^ args.width ∣ args.stepOf Operand.signed - args.stepOf Operand.value) := by
  by_cases h : args.stepOf Operand.value = 0
  · constructor
    · intro hall
      obtain ⟨r, hr, -⟩ := hall 0
      rw [object_eq_none args h] at hr
      cases hr
    · exact fun hne => absurd h hne.1
  · have hlen : args.elements.length = PyRange.len (args.startOf Operand.value) (args.stopOf Operand.value) (args.stepOf Operand.value) := by
      simp [Args.elements, PyRange.elements]
    have hget : ∀ k, (args.elements[k]?.map (BitVec.ofInt args.width)) =
        if k < args.elements.length then some (BitVec.ofInt args.width (args.startOf Operand.value + k * args.stepOf Operand.value))
        else none := by
      intro k
      rw [Args.elements, PyRange.elements_get, ← Args.elements, hlen]
      split <;> rfl
    rw [and_iff_right h, ← progressions_agree_iff]
    have hobject : ∀ code, ∃ r : Cells args.width, (lowerRange code args).2 = ⟨code, some r⟩ ∧ ∀ k, yielded r k =
        if k < signedLength args.width (args.startOf Operand.signed) (args.stopOf Operand.signed) (args.stepOf Operand.signed) then
          some (BitVec.ofInt args.width (args.startOf Operand.signed + k * args.stepOf Operand.signed))
        else none := by
      intro code
      obtain ⟨r, hr, hiter, hs, hremaining⟩ := lowerRange_eq args h code
      refine ⟨r, hr, fun k => ?_⟩
      rw [yielded_eq (width_bounds args).1, hremaining, hiter, hs, ← BitVec.ofInt_natCast, ← BitVec.ofInt_mul, ← BitVec.ofInt_add]
    simp only [← hget]
    constructor
    · intro hall k
      obtain ⟨r, hr, hy⟩ := hall 0
      obtain ⟨r', hr', hy'⟩ := hobject 0
      rw [hr'] at hr
      obtain rfl := Option.some.inj hr
      rw [if_neg h] at hy
      exact (hy' k).symm.trans (hy.2 k)
    · intro hall code
      obtain ⟨r, hr, hy⟩ := hobject code
      refine ⟨r, congrArg Construction.object hr, ?_⟩
      rw [if_neg h]
      exact ⟨congrArg Construction.errorCode hr, fun k => (hy k).trans (hall k)⟩

/-- `range(np.uint8(200))` counts down from 0 to -56 and so yields nothing. -/
theorem narrow_unsigned_stop :
    ¬ IteratesLikePython (.stop ⟨⟨false, .w8⟩, 200⟩) := by
  intro h
  obtain ⟨r, hr, hy⟩ := h 0
  have hobject : (lowerRange 0 (.stop ⟨⟨false, .w8⟩, 200⟩)).2.object = some ⟨0, 200, 1, 0, 0⟩ := by decide
  rw [hobject] at hr
  obtain rfl := Option.some.inj hr
  exact absurd (hy.2 0) (by decide)

end RangeObject

end NumbaCudaMlir
