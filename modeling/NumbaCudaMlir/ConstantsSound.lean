import NumbaCudaMlir.Constants

/-!
# Lowered constants denote themselves

A route loses a constant where it hands `arith.constant` an integer that no
64-bit attribute holds, and the route of constant tuples also where an element
is no Python scalar.
-/

namespace NumbaCudaMlir.Constants

open CInt MachineInt

/-! ## Types -/

theorem bool_toInt_cases (b : Bool) : b.toInt = 0 ∨ b.toInt = 1 := by cases b <;> simp

theorem PyConst.typeof_int {v : Int} {t : ScalarType} (h : (int v).typeof = some t) :
    t = .integer int64 ∧ InInt64 v ∨ t = .integer uint64 ∧ InUInt64 v := by
  rw [typeof] at h
  split at h
  · next hv => exact .inl ⟨(Option.some.inj h).symm, hv⟩
  · split at h
    · next hu => exact .inr ⟨(Option.some.inj h).symm, hu⟩
    · cases h

theorem PyConst.typeof_inRange {c : PyConst} {t : IntType} (h : c.typeof = some (.integer t)) :
    InRange t.signed t.bits c.value := by
  cases c with
  | int v =>
    obtain ⟨ht, hv⟩ | ⟨ht, hv⟩ := typeof_int h
    · cases ht; exact hv
    · cases ht; exact hv
  | bool b | npBool b => cases h
  | npInteger t x =>
    cases h
    exact value_inRange t.width.bits_pos t.signed x

theorem PyConst.typeof_boolean {c : PyConst} (h : c.typeof = some .boolean) : c.value = 0 ∨ c.value = 1 := by
  cases c with
  | int v => obtain ⟨ht, -⟩ | ⟨ht, -⟩ := typeof_int h <;> cases ht
  | bool b | npBool b => exact bool_toInt_cases b
  | npInteger t x => cases h

theorem inInt64_of_inRange {t : IntType} {v : Int} (h : InRange t.signed t.bits v)
    (hu : t.signed = false → v < 2 ^ (t.bits - 1)) : InInt64 v := by
  obtain ⟨signed, width⟩ := t
  cases signed with
  | true =>
    simp only [inRange_signed, IntType.bits] at h
    unfold InInt64
    cases width <;> simp only [Width.bits] at h <;> omega
  | false =>
    have hlt := hu rfl
    simp only [inRange_unsigned, IntType.bits] at h hlt
    unfold InInt64
    cases width <;> simp only [Width.bits] at h hlt <;> omega

theorem inInt64_upper {t : IntType} {v : Int} (h : InRange t.signed t.bits v) (hs : t.signed = false) (hv : 2 ^ (t.bits - 1) ≤ v) :
    InInt64 (v - 2 ^ t.bits) := by
  obtain ⟨signed, width⟩ := t
  cases hs
  simp only [inRange_unsigned, IntType.bits] at h hv ⊢
  unfold InInt64
  cases width <;> simp only [Width.bits] at h hv ⊢ <;> omega

/-! ## Scalars -/

theorem arithConstant_eq_some_iff {bits : Nat} {v : Int} {l : Lowered} :
    arithConstant bits v = some l ↔ InInt64 v ∧ l = .value bits (BitVec.ofInt bits v) := by
  simp [arithConstant, integerAttr, eq_comm]

theorem constScalar_eq {c : PyConst} {t : ScalarType} (h : c.typeof = some t) :
    constScalar t c = some (.value t.bits (BitVec.ofInt t.bits c.value)) := by
  cases t with
  | boolean =>
    refine arithConstant_eq_some_iff.mpr ⟨?_, rfl⟩
    have := PyConst.typeof_boolean h
    unfold InInt64
    omega
  | integer t =>
    have hr := PyConst.typeof_inRange h
    unfold constScalar
    simp only
    split
    · next hs =>
      refine arithConstant_eq_some_iff.mpr ⟨?_, by rw [ScalarType.bits, ofInt_sub_two_pow]⟩
      exact inInt64_upper hr hs.1 hs.2
    · next hs =>
      refine arithConstant_eq_some_iff.mpr ⟨inInt64_of_inRange hr fun hu => ?_, rfl⟩
      by_contra hc
      exact hs ⟨hu, by omega⟩

theorem literalScalar_eq {c : PyConst} {t : ScalarType} (h : c.typeof = some t) :
    literalScalar c = arithConstant t.bits c.value := by
  cases c with
  | int v =>
    obtain ⟨rfl, -⟩ | ⟨rfl, -⟩ := PyConst.typeof_int h
    · rfl
    · rfl
  | bool b | npBool b => cases h; rfl
  | npInteger t x => cases h; rfl

/-! ## Tuples -/

mutual

/-- The constant modulo `2 ^ w` for the width `w` of its type. -/
def meaning : ConstType → Const → Lowered
  | .scalar t, .scalar c => .value t.bits (BitVec.ofInt t.bits c.value)
  | .tuple ts, .tuple cs => .tuple (meanings ts cs)
  | _, _ => .tuple []

def meanings : List ConstType → List Const → List Lowered
  | t :: ts, c :: cs => meaning t c :: meanings ts cs
  | _, _ => []

end

mutual

def FitsInt64 : Const → Prop
  | .scalar c => InInt64 c.value
  | .tuple cs => AllFitInt64 cs

def AllFitInt64 : List Const → Prop
  | [] => True
  | c :: cs => FitsInt64 c ∧ AllFitInt64 cs

end

theorem typeofAll_cons {c : Const} {cs : List Const} {ts : List ConstType} (h : typeofAll (c :: cs) = some ts) :
    ∃ u us, typeof c = some u ∧ typeofAll cs = some us ∧ ts = u :: us := by
  simp only [typeofAll, Option.bind_eq_bind, Option.pure_def, Option.bind_eq_some_iff, Option.some.injEq] at h
  obtain ⟨u, hu, us, hus, rfl⟩ := h
  exact ⟨u, us, hu, hus, rfl⟩

theorem typeof_scalar {c : PyConst} {t : ConstType} (h : typeof (.scalar c) = some t) :
    ∃ u, c.typeof = some u ∧ t = .scalar u := by
  rw [typeof, Option.map_eq_some_iff] at h
  obtain ⟨u, hu, rfl⟩ := h
  exact ⟨u, hu, rfl⟩

theorem typeof_tuple {cs : List Const} {t : ConstType} (h : typeof (.tuple cs) = some t) :
    ∃ us, typeofAll cs = some us ∧ t = .tuple us := by
  rw [typeof, Option.map_eq_some_iff] at h
  obtain ⟨us, hus, rfl⟩ := h
  exact ⟨us, hus, rfl⟩

theorem literalScalar_iff {c : PyConst} {t : ScalarType} (h : c.typeof = some t) (l : Lowered) :
    literalScalar c = some l ↔ InInt64 c.value ∧ l = .value t.bits (BitVec.ofInt t.bits c.value) := by
  rw [literalScalar_eq h, arithConstant_eq_some_iff]

mutual

theorem lowerLiteralIfNeeded_iff : ∀ {c : Const} {t : ConstType}, typeof c = some t → ∀ l,
    (lowerLiteralIfNeeded c = some l ↔ FitsInt64 c ∧ l = meaning t c)
  | .scalar c, t, h, l => by
    obtain ⟨u, hu, rfl⟩ := typeof_scalar h
    rw [lowerLiteralIfNeeded, FitsInt64, meaning]
    exact literalScalar_iff hu l
  | .tuple cs, t, h, l => by
    obtain ⟨us, hus, rfl⟩ := typeof_tuple h
    rw [lowerLiteralIfNeeded, FitsInt64, meaning, Option.map_eq_some_iff]
    constructor
    · rintro ⟨ls, hls, rfl⟩
      obtain ⟨hfit, rfl⟩ := (lowerLiteralsIfNeeded_iff hus ls).mp hls
      exact ⟨hfit, rfl⟩
    · intro ⟨hfit, hl⟩
      exact ⟨_, (lowerLiteralsIfNeeded_iff hus _).mpr ⟨hfit, rfl⟩, hl.symm⟩

theorem lowerLiteralsIfNeeded_iff : ∀ {cs : List Const} {ts : List ConstType}, typeofAll cs = some ts → ∀ ls,
    (lowerLiteralsIfNeeded cs = some ls ↔ AllFitInt64 cs ∧ ls = meanings ts cs)
  | [], ts, h, ls => by
    rw [typeofAll] at h
    cases h
    simp [lowerLiteralsIfNeeded, AllFitInt64, meanings, eq_comm]
  | c :: cs, ts, h, ls => by
    obtain ⟨u, us, hu, hus, rfl⟩ := typeofAll_cons h
    simp only [lowerLiteralsIfNeeded, Option.bind_eq_bind, Option.pure_def, Option.bind_eq_some_iff, Option.some.injEq,
      AllFitInt64, meanings]
    constructor
    · rintro ⟨l, hl, ls, hls, rfl⟩
      obtain ⟨hc, rfl⟩ := (lowerLiteralIfNeeded_iff hu l).mp hl
      obtain ⟨hcs, rfl⟩ := (lowerLiteralsIfNeeded_iff hus ls).mp hls
      exact ⟨⟨hc, hcs⟩, rfl⟩
    · rintro ⟨⟨hc, hcs⟩, rfl⟩
      exact ⟨_, (lowerLiteralIfNeeded_iff hu _).mpr ⟨hc, rfl⟩, _, (lowerLiteralsIfNeeded_iff hus _).mpr ⟨hcs, rfl⟩, rfl⟩

end

/-- An integer or a boolean of Python that is a 64-bit attribute. -/
def PlainElement : Const → Prop
  | .scalar (.int v) => InInt64 v
  | .scalar (.bool _) => True
  | _ => False

theorem constElement_iff {c : Const} {t : ConstType} (h : typeof c = some t) (l : Lowered) :
    constElement t c = some l ↔ PlainElement c ∧ l = meaning t c := by
  cases c with
  | scalar k =>
    obtain ⟨u, hu, rfl⟩ := typeof_scalar h
    cases k with
    | int v => exact arithConstant_eq_some_iff
    | bool b =>
      have hb : InInt64 b.toInt := by cases b <;> decide
      rw [constElement, arithConstant_eq_some_iff, PlainElement, meaning]
      simp [hb, PyConst.value]
    | npInteger | npBool => simp [constElement, PlainElement]
  | tuple cs =>
    obtain ⟨us, -, rfl⟩ := typeof_tuple h
    simp [constElement, PlainElement]

theorem constElements_iff : ∀ {cs : List Const} {ts : List ConstType}, typeofAll cs = some ts → ∀ ls,
    (constElements ts cs = some ls ↔ (∀ c ∈ cs, PlainElement c) ∧ ls = meanings ts cs)
  | [], ts, h, ls => by
    rw [typeofAll] at h
    cases h
    simp [constElements, meanings, eq_comm]
  | c :: cs, ts, h, ls => by
    obtain ⟨u, us, hu, hus, rfl⟩ := typeofAll_cons h
    simp only [constElements, Option.bind_eq_bind, Option.pure_def, Option.bind_eq_some_iff, Option.some.injEq,
      List.forall_mem_cons, meanings, constElement_iff hu, constElements_iff hus]
    constructor
    · rintro ⟨l, ⟨hc, rfl⟩, ls, ⟨hcs, rfl⟩, rfl⟩
      exact ⟨⟨hc, hcs⟩, rfl⟩
    · rintro ⟨⟨hc, hcs⟩, rfl⟩
      exact ⟨_, ⟨hc, rfl⟩, _, ⟨hcs, rfl⟩, rfl⟩

/-! ## Paths -/

/-- What a path can lower: a constant in the IR where the elements of a tuple
are plain, any other where all its integers fit in 64 signed bits. -/
def Path.Lowers : Path → Const → Prop
  | .literal, .scalar _ | .literalArg, .scalar _ => True
  | .literal, .tuple cs | .literalArg, .tuple cs => ∀ c ∈ cs, PlainElement c
  | .global, c | .freeVar, c | .omittedArg, c => FitsInt64 c

theorem lowerConstAssign_iff {c : Const} {t : ConstType} (h : typeof c = some t) :
    lowerConstAssign t c = some (meaning t c) ↔ Path.literal.Lowers c := by
  cases c with
  | scalar k =>
    obtain ⟨u, hu, rfl⟩ := typeof_scalar h
    simp [lowerConstAssign, constScalar_eq hu, meaning, Path.Lowers]
  | tuple cs =>
    obtain ⟨us, hus, rfl⟩ := typeof_tuple h
    simp [lowerConstAssign, meaning, Path.Lowers, constElements_iff hus]

/-- **Lowered constants.** A path lowers a typed constant to what it denotes exactly where it can lower it. -/
theorem lower_eq_iff (p : Path) {c : Const} {t : ConstType} (h : typeof c = some t) :
    lower p t c = some (meaning t c) ↔ p.Lowers c := by
  have hstored : lowerLiteralIfNeeded c = some (meaning t c) ↔ FitsInt64 c := by
    simp [lowerLiteralIfNeeded_iff h]
  cases p with
  | literal => exact lowerConstAssign_iff h
  | literalArg =>
    have hlit := lowerConstAssign_iff h
    cases c with
    | scalar | tuple => exact hlit
  | freeVar | omittedArg => exact hstored
  | global =>
    cases c with
    | scalar k =>
      obtain ⟨u, hu, rfl⟩ := typeof_scalar h
      simp [lower, lowerGlobalAssign, arithConstant_eq_some_iff, meaning, Path.Lowers, FitsInt64]
    | tuple cs =>
      obtain ⟨us, -, rfl⟩ := typeof_tuple h
      exact hstored

end NumbaCudaMlir.Constants
