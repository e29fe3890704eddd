import NumbaCudaMlir.ExplicitLaunch
import NumbaCudaMlir.FastPathSound
import Mathlib.Data.Nat.Bitwise

/-!
# Slots of numbers

What the launcher writes for each number, on its fast and on its standard path.
A half goes through the `float` it reads, and comes out as it was unless it is
subnormal.
-/

namespace NumbaCudaMlir.ExplicitLaunch

open CInt
open BinaryFloat (Format Value binary16 binary32 binary64 decode encodeParts widen)

/-! ## Halves -/

/-- A half with the lowest exponent that is not zero. -/
def IsSubnormal (half : BitVec 16) : Prop := half.toNat / 2 ^ 10 % 2 ^ 5 = 0 ∧ half.toNat % 2 ^ 10 ≠ 0

instance (half : BitVec 16) : Decidable (IsSubnormal half) := inferInstanceAs (Decidable (_ ∧ _))

theorem or_eq_add {a b k : Nat} (hb : b < 2 ^ k) : a * 2 ^ k ||| b = a * 2 ^ k + b := by
  rw [← Nat.shiftLeft_eq, Nat.shiftLeft_add_eq_or_of_lt hb]

theorem doubleToF16Bits_fields (negative : Bool) {e x : Nat} (he : e < 2 ^ 8) (hx : x < 2 ^ 23) :
    doubleToF16Bits (.ofNat 32 (encodeParts binary32 negative e x)) =
      if e = 255 then .ofNat 16 (negative.toNat * 2 ^ 15 ||| 0x7C00 ||| if x ≠ 0 then (x >>> 13) ||| 1 else 0)
      else if 142 < e then .ofNat 16 (negative.toNat * 2 ^ 15 ||| 0x7C00)
      else if 112 < e then .ofNat 16 (negative.toNat * 2 ^ 15 ||| (e - 112) <<< 10 ||| x >>> 13)
      else if 103 ≤ e then .ofNat 16 (negative.toNat * 2 ^ 15 ||| (x ||| 0x800000) >>> (136 - e))
      else .ofNat 16 (negative.toNat * 2 ^ 15) := by
  have hlt : encodeParts binary32 negative e x < 2 ^ 32 := BinaryFloat.encodeParts_lt binary32 negative he hx
  have hsign : (encodeParts binary32 negative e x >>> 16) &&& 0x8000 = negative.toNat * 2 ^ 15 := by
    rw [show 0x8000 = 2 ^ 15 from rfl, Nat.and_two_pow, Nat.testBit_shiftRight]
    have hbit : (encodeParts binary32 negative e x).testBit 31 = negative := BinaryFloat.encodeParts_testBit binary32 negative he hx
    rw [hbit]
  have hexp : (encodeParts binary32 negative e x >>> 23) &&& 0xFF = e := by
    rw [Nat.shiftRight_eq_div_pow, show 0xFF = 2 ^ 8 - 1 from rfl, Nat.and_two_pow_sub_one_eq_mod]
    exact BinaryFloat.encodeParts_div binary32 negative he hx
  have hmant : encodeParts binary32 negative e x &&& 0x7FFFFF = x := by
    rw [show 0x7FFFFF = 2 ^ 23 - 1 from rfl, Nat.and_two_pow_sub_one_eq_mod]
    exact BinaryFloat.encodeParts_mod binary32 negative e hx
  unfold doubleToF16Bits
  simp only [BitVec.toNat_ofNat, Nat.mod_eq_of_lt hlt, hsign, hexp, hmant]
  by_cases h255 : e = 255
  · rw [if_pos h255, if_pos (by omega)]
  rw [if_neg h255, if_neg (by omega)]
  by_cases h142 : 142 < e
  · rw [if_pos h142, if_pos (by omega)]
  rw [if_neg h142, if_neg (by omega)]
  by_cases h112 : 112 < e
  · rw [if_pos h112, if_pos (by omega), show ((e : Int) - 127 + 15).toNat = e - 112 by omega]
  rw [if_neg h112, if_neg (by omega)]
  by_cases h103 : 103 ≤ e
  · rw [if_pos h103, if_pos (by omega), show (-((e : Int) - 127) - 14 + 23).toNat = 136 - e by omega]
  · rw [if_neg h103, if_neg (by omega)]

theorem ofParts_zero (f : Format) (negative : Bool) : BinaryFloat.ofParts f negative 0 0 = .finite 0 := by
  have htop : ¬ 0 = 2 ^ f.exponentBits - 1 := by
    have : 1 < 2 ^ f.exponentBits := Nat.one_lt_two_pow (by simp [Format.exponentBits])
    omega
  rw [BinaryFloat.ofParts, if_neg htop]
  simp

theorem decode_half_sign (negative : Bool) : decode binary16 (BitVec.ofNat 16 (negative.toNat * 2 ^ 15)).toNat = .finite 0 := by
  have hle := negative.toNat_le
  have h := BinaryFloat.decode_encodeParts binary16 negative (Nat.two_pow_pos 5) (Nat.two_pow_pos 10)
  rw [encodeParts, Nat.zero_mul, Nat.add_zero, ofParts_zero] at h
  rw [BitVec.toNat_ofNat, Nat.mod_eq_of_lt (by omega)]
  exact h

theorem encodeParts_half (negative : Bool) {e x : Nat} (hx : x < 2 ^ 10) :
    negative.toNat * 2 ^ 15 ||| e <<< 10 ||| x = negative.toNat * 2 ^ 15 ||| (e * 2 ^ 10 + x) := by
  rw [Nat.or_assoc, Nat.shiftLeft_eq, or_eq_add hx]

theorem decode_half (negative : Bool) {e x : Nat} (he : e < 2 ^ 5) (hx : x < 2 ^ 10) :
    decode binary16 (BitVec.ofNat 16 (negative.toNat * 2 ^ 15 ||| (e * 2 ^ 10 + x))).toNat = BinaryFloat.ofParts binary16 negative e x := by
  have hlt : encodeParts binary16 negative e x < 2 ^ 16 := BinaryFloat.encodeParts_lt binary16 negative he hx
  have hbits : negative.toNat * 2 ^ 15 ||| (e * 2 ^ 10 + x) = encodeParts binary16 negative e x := by
    rw [or_eq_add (by omega), ← Nat.add_assoc]
    rfl
  rw [hbits, BitVec.toNat_ofNat, Nat.mod_eq_of_lt hlt]
  exact BinaryFloat.decode_encodeParts binary16 negative he hx

theorem decode_doubleToF16Bits (half : BitVec 16) : decode binary16 (doubleToF16Bits (halfToSingle half)).toNat =
    if IsSubnormal half then .finite 0 else decode binary16 half.toNat := by
  change _ = if half.toNat / 2 ^ 10 % 2 ^ 5 = 0 ∧ half.toNat % 2 ^ 10 ≠ 0 then _ else _
  have hx : half.toNat % 2 ^ 10 < 2 ^ 10 := Nat.mod_lt _ (by decide)
  have he : half.toNat / 2 ^ 10 % 2 ^ 5 < 2 ^ 5 := Nat.mod_lt _ (by decide)
  have hdecode : decode binary16 half.toNat =
    BinaryFloat.ofParts binary16 (half.toNat.testBit 15) (half.toNat / 2 ^ 10 % 2 ^ 5) (half.toNat % 2 ^ 10) := rfl
  rw [hdecode, halfToSingle, widen]
  simp only [show binary16.fractionBits = 10 from rfl, show binary16.exponentBits = 5 from rfl, show binary32.exponentBits = 8 from rfl,
    show binary32.fractionBits = 23 from rfl, show binary16.bias = 15 from rfl, show binary32.bias = 127 from rfl]
  generalize half.toNat % 2 ^ 10 = x at hx
  generalize half.toNat / 2 ^ 10 % 2 ^ 5 = e at he
  generalize half.toNat.testBit 15 = negative
  have hshift : x * 2 ^ (23 - 10) < 2 ^ 23 := by omega
  have hback : (x * 2 ^ (23 - 10)) >>> 13 = x := by
    rw [Nat.shiftRight_eq_div_pow]
    exact Nat.mul_div_cancel _ (by decide)
  by_cases htop : e = 2 ^ 5 - 1
  · rw [if_pos htop, if_neg (by omega), doubleToF16Bits_fields negative (by decide) hshift, if_pos (by decide), hback]
    have hor : (if x * 2 ^ (23 - 10) ≠ 0 then x ||| 1 else 0) < 2 ^ 10 ∧ ((if x * 2 ^ (23 - 10) ≠ 0 then x ||| 1 else 0) = 0 ↔ x = 0) := by
      by_cases h0 : x = 0
      · simp [h0]
      · have hlt : x ||| 1 < 2 ^ 10 := Nat.or_lt_two_pow hx (by decide)
        have hne : x ||| 1 ≠ 0 := fun h => h0 (Nat.or_eq_zero_iff.mp h).1
        rw [if_pos (by omega)]
        exact ⟨hlt, by simp [h0, hne]⟩
    rw [Nat.or_assoc, show 0x7C00 = 31 * 2 ^ 10 from rfl, or_eq_add hor.1, decode_half negative (by decide) hor.1, BinaryFloat.ofParts,
      BinaryFloat.ofParts, if_pos (by decide), if_pos (show e = 2 ^ binary16.exponentBits - 1 from htop)]
    simp only [hor.2]
  · rw [if_neg htop]
    by_cases h0 : e = 0
    · subst h0
      rw [if_pos rfl]
      by_cases hx0 : x = 0
      · subst hx0
        rw [if_pos rfl, if_neg (by omega), doubleToF16Bits_fields negative (by decide) (by decide), if_neg (by decide), if_neg (by decide),
          if_neg (by decide), if_neg (by decide), decode_half_sign, ofParts_zero]
      · have hlog : x.log2 < 10 := (Nat.log2_lt hx0).mpr hx
        have hsub : (x - 2 ^ x.log2) * 2 ^ (23 - x.log2) < 2 ^ 23 :=
          (BinaryFloat.ofParts_widen_subnormal BinaryFloat.wider_binary16_binary32 negative hx0 hx).1
        have hzero : (((x - 2 ^ x.log2) * 2 ^ (23 - x.log2)) ||| 0x800000) >>> (136 - (x.log2 + 1 + (127 - 15 - 10))) = 0 := by
          rw [Nat.shiftRight_eq_div_pow]
          refine Nat.div_eq_of_lt ((Nat.or_lt_two_pow (n := 24) (by omega) (by decide)).trans_le (Nat.pow_le_pow_right (by decide) ?_))
          omega
        rw [if_neg hx0, if_pos ⟨rfl, hx0⟩, doubleToF16Bits_fields negative (by omega) hsub, if_neg (by omega), if_neg (by omega),
          if_neg (by omega), if_pos (by omega), hzero, Nat.or_zero, decode_half_sign]
    · rw [if_neg h0, if_neg (by omega), doubleToF16Bits_fields negative (by omega) hshift, if_neg (by omega), if_neg (by omega),
        if_pos (by omega), hback, encodeParts_half negative hx, show e + (127 - 15) - 112 = e by omega]
      exact decode_half negative he hx

/-! ## What is written -/

def Wrote : PyObj → CudaArg → Prop
  | .long _ v, slot => slot = .ofInt 64 v
  | .npInteger n, slot => slot = .ofInt 64 n.value
  | .float _ bits, slot => slot = bits
  -- The fast path leaves the upper half of the slot as it was.
  | .npFloat32 bits, slot => slot.toNat % 2 ^ 32 = bits.toNat
  | .npFloat16 single, slot => slot = (doubleToF16Bits single).setWidth 64
  | _, _ => False

theorem cudaArgI64_pylongAsInt {v x : Int} (h : pylongAsInt v = .ok x) : cudaArgI64 x = .ofInt 64 v := by
  rw [(pylongAsInt_ok.mp h).2]
  exact ofInt_wrap64 v

theorem extractPyLong_wrote {cls : LongClass} {v : Int} {flag : Bool} {helper helper' : LaunchHelper}
    (h : extractPyLong (.long cls v) flag helper = .ok helper') :
    (InInt64 v ∨ InUInt64 v) ∧ ∃ cs, helper' = helper.pushScalar [.ofInt 64 v] 0 cs ∧ (flag = false → cs = []) := by
  unfold extractPyLong at h
  by_cases hv : InInt64 v
  · simp only [asLongLong, if_pos hv] at h
    cases h
    exact ⟨.inl hv, _, rfl, fun hf => by rw [hf]; rfl⟩
  · simp only [asLongLong, if_neg hv, raise, asUnsignedLongLong] at h
    by_cases hneg : v < 0
    · rw [if_pos hneg] at h
      cases h
    · by_cases hu : InUInt64 v
      · rw [if_neg hneg, if_pos hu] at h
        cases h
        exact ⟨.inr hu, _, by rw [cudaArgI64, ofInt_wrap64], fun hf => by rw [hf]; rfl⟩
      · rw [if_neg hneg, if_neg hu] at h
        cases h

theorem extractCudaArg_wrote {driver : Driver} {kind : PythonArgKind} {family : ParameterKind} {arg : PyObj} {flag : Bool}
    {helper helper' : LaunchHelper} (hn : (number arg).isSome = true) (hk : classifyArg arg = .ok (kind, family))
    (h : extractCudaArg driver kind arg flag helper = .ok helper') :
    OnLong (fun v => InInt64 v ∨ InUInt64 v) arg ∧
      ∃ slot ndim cs, Wrote arg slot ∧ helper' = helper.pushScalar [slot] ndim cs ∧ (flag = false → cs = []) := by
  cases arg with
  | long cls v =>
    cases hk
    obtain ⟨hv, cs, hc, hf⟩ := extractPyLong_wrote h
    exact ⟨hv, _, 0, cs, rfl, hc, hf⟩
  | npInteger n =>
    cases hk
    obtain ⟨x, hx⟩ := npInteger_converts n
    simp only [extractCudaArg, extractNpInteger, hx] at h
    cases h
    exact ⟨trivial, _, 0, _, cudaArgI64_pylongAsInt hx, rfl, fun hf => by rw [hf]; rfl⟩
  | float =>
    cases hk
    cases h
    exact ⟨trivial, _, 0, _, rfl, rfl, fun hf => by rw [hf]; rfl⟩
  | npFloat16 =>
    cases hk
    cases h
    exact ⟨trivial, _, 0, _, rfl, rfl, fun hf => by rw [hf]; rfl⟩
  | npFloat32 bits =>
    cases hk
    cases h
    have hlow : (cudaArgF32 bits).toNat % 2 ^ 32 = bits.toNat := by
      have hb := bits.isLt
      rw [cudaArgF32, BitVec.toNat_setWidth]
      omega
    exact ⟨trivial, _, 3, _, hlow, rfl, fun hf => by rw [hf]; rfl⟩
  | _ => cases hn

theorem extractLoop_wrote {driver : Driver} {kinds : List PythonArgKind} {args : List PyObj} (hc : Classified kinds args) :
    ∀ {flags : List Bool} {helper helper' : LaunchHelper}, (∀ arg ∈ args, (number arg).isSome = true) →
    extractLoop driver args kinds flags helper = .ok helper' →
    LongArgs (fun v => InInt64 v ∨ InUInt64 v) args ∧ ∃ slots metas, List.Forall₂ Wrote args slots ∧ helper'.cuargs = helper.cuargs ++ slots ∧
      helper'.argMetadata = helper.argMetadata ++ metas ∧
      (∀ cuargs, metas.flatMap (·.pointers cuargs) = (List.range' helper.cuargs.length args.length).map .slot) ∧
      (true ∉ flags → helper'.constants = helper.constants) := by
  induction hc with
  | nil =>
    intro flags helper helper' _ h
    cases h
    exact ⟨List.forall_mem_nil _, [], [], .nil, by simp, by simp, fun _ => rfl, fun _ => rfl⟩
  | @cons kind arg kinds args hk _ ih =>
    intro flags helper helper' hn h
    obtain ⟨family, hk⟩ := hk
    rw [extractLoop] at h
    cases hone : extractCudaArg driver kind arg (flags.headD false) helper with
    | error e => rw [hone] at h; cases h
    | ok mid =>
      rw [hone] at h
      obtain ⟨hv, slot, ndim, cs, hw, rfl, hcs⟩ := extractCudaArg_wrote (hn arg List.mem_cons_self) hk hone
      obtain ⟨hvs, slots, metas, hws, hcu, hmeta, hptr, hconst⟩ := ih (fun a ha => hn a (List.mem_cons_of_mem _ ha)) h
      refine ⟨longArgs_cons.mpr ⟨hv, hvs⟩, slot :: slots, ⟨.scalar, helper.cuargs.length, ndim⟩ :: metas, .cons hw hws, ?_, ?_, fun cuargs => ?_, fun hf => ?_⟩
      · rw [hcu, LaunchHelper.pushScalar, List.append_assoc]
        rfl
      · rw [hmeta, LaunchHelper.pushScalar, List.append_assoc]
        rfl
      · rw [List.flatMap_cons, hptr, List.length_cons, List.range'_succ, LaunchHelper.pushScalar, List.length_append]
        rfl
      · have hhead : flags.headD false = false := by
          cases flags with
          | nil => rfl
          | cons b bs => cases b with
            | false => rfl
            | true => exact absurd List.mem_cons_self hf
        rw [hconst (fun hm => hf (List.mem_of_mem_tail hm)), LaunchHelper.pushScalar, hcs hhead, List.append_nil]

theorem fastLoop_wrote {kinds : List PythonArgKind} {args : List PyObj} (h : FastArgs kinds args) :
    ∀ {flags : List Bool} {exs : List ScalarExtractor} {stale slots : List CudaArg},
    scalarExtractors kinds flags = some exs → fastLoop exs args stale = .ok slots → List.Forall₂ Wrote args slots := by
  have step {arg : PyObj} {args : List PyObj} {ex : ScalarExtractor} {rest : List ScalarExtractor} {stale slots : List CudaArg}
      (hone : ∀ {out slot}, ex arg out = .ok slot → Wrote arg slot)
      (ih : ∀ {slots}, fastLoop rest args stale.tail = .ok slots → List.Forall₂ Wrote args slots)
      (h : fastLoop (ex :: rest) (arg :: args) stale = .ok slots) : List.Forall₂ Wrote (arg :: args) slots := by
    rw [fastLoop] at h
    cases hs : ex arg (stale.headD 0) with
    | error e => rw [hs] at h; cases h
    | ok slot =>
      cases hr : fastLoop rest args stale.tail with
      | error e => rw [hs, hr] at h; cases h
      | ok more =>
        rw [hs, hr] at h
        cases h
        exact .cons (hone hs) (ih hr)
  induction h with
  | nil =>
    intro flags exs stale slots hx h
    cases hx
    cases h
    exact .nil
  | @long cls v _ _ _ ih =>
    intro flags exs stale slots hx h
    obtain ⟨-, ex, rest, hex, hr, rfl⟩ := scalarExtractors_cons hx
    cases hex
    refine step (fun {_ slot} hs => ?_) (ih hr) h
    by_cases hv : InInt64 v
    · rw [fastExtractPyLong, asLongLong, if_pos hv] at hs
      cases hs
      rfl
    · rw [fastExtractPyLong, asLongLong, if_neg hv] at hs
      cases hs
  | @npInteger n _ _ _ ih =>
    intro flags exs stale slots hx h
    obtain ⟨-, ex, rest, hex, hr, rfl⟩ := scalarExtractors_cons hx
    cases hex
    refine step (fun {_ slot} hs => ?_) (ih hr) h
    obtain ⟨x, hn⟩ := npInteger_converts n
    rw [fastExtractNpInteger, hn] at hs
    cases hs
    exact cudaArgI64_pylongAsInt hn
  | float _ ih =>
    intro flags exs stale slots hx h
    obtain ⟨-, ex, rest, hex, hr, rfl⟩ := scalarExtractors_cons hx
    cases hex
    refine step (fun {_ slot} hs => ?_) (ih hr) h
    cases hs
    rfl
  | @npFloat32 bits _ _ _ ih =>
    intro flags exs stale slots hx h
    obtain ⟨-, ex, rest, hex, hr, rfl⟩ := scalarExtractors_cons hx
    cases hex
    refine step (fun {out slot} hs => ?_) (ih hr) h
    cases hs
    have hb := bits.isLt
    simp only [Wrote, BitVec.toNat_append]
    rw [← Nat.shiftLeft_add_eq_or_of_lt hb, Nat.shiftLeft_eq]
    omega

theorem prepareParams_wrote {driver : Driver} {profile : PythonArgProfile} {pyargs : List PyObj} {helper : LaunchHelper}
    {params : LaunchParams} (hc : Classified profile.argKinds pyargs) (hn : ∀ arg ∈ pyargs, (number arg).isSome = true)
    (h : prepareParams driver profile pyargs helper = .ok params) :
    List.Forall₂ Wrote pyargs params.cuargs ∧ params.cuargPointers = (List.range pyargs.length).map .slot ∧
      (true ∉ profile.constantArgFlags → params.constants = []) := by
  unfold prepareParams at h
  by_cases hfast : profile.fastExtractors.isEmpty
  · rw [if_pos hfast, standardPath, extractCudaArgs] at h
    cases hl : extractLoop driver pyargs profile.argKinds profile.constantArgFlags .empty with
    | error e => rw [hl] at h; cases h
    | ok helper' =>
      rw [hl] at h
      cases h
      obtain ⟨-, slots, metas, hw, hcu, hmeta, hptr, hconst⟩ := extractLoop_wrote hc hn hl
      rw [LaunchHelper.cuargPointers, hmeta, hcu]
      refine ⟨hw, ?_, hconst⟩
      rw [List.range_eq_range']
      exact hptr _
  · rw [if_neg hfast, fastPath] at h
    obtain ⟨exs, hx⟩ := scalarExtractors_of_fast fun he : profile.fastExtractors = [] => hfast (by rw [he]; rfl)
    have hexs : profile.fastExtractors = exs := by rw [PythonArgProfile.fastExtractors, hx]; rfl
    cases hl : fastLoop profile.fastExtractors pyargs helper.cuargs with
    | error e => rw [hl] at h; cases h
    | ok slots =>
      rw [hl] at h
      cases h
      have hw := fastLoop_wrote (fastArgs_of_classified hc hx) hx (hexs ▸ hl)
      exact ⟨hw, by rw [hw.length_eq], fun _ => rfl⟩

/-! ## Which launches get their parameters -/

theorem extractLoop_ok (driver : Driver) {kinds : List PythonArgKind} {args : List PyObj} (hc : Classified kinds args) :
    ∀ (flags : List Bool) (helper : LaunchHelper), (∀ arg ∈ args, (number arg).isSome = true) →
    LongArgs (fun v => InInt64 v ∨ InUInt64 v) args → ∃ helper', extractLoop driver args kinds flags helper = .ok helper' := by
  induction hc with
  | nil => exact fun _ _ _ _ => ⟨_, rfl⟩
  | @cons kind arg kinds args hk _ ih =>
    intro flags helper hn hl
    obtain ⟨family, hk⟩ := hk
    obtain ⟨hv, hl⟩ := longArgs_cons.mp hl
    obtain ⟨mid, hone⟩ : ∃ mid, extractCudaArg driver kind arg (flags.headD false) helper = .ok mid := by
      have hnum := hn arg List.mem_cons_self
      cases arg with
      | long cls v =>
        cases hk
        simp only [extractCudaArg, extractPyLong]
        by_cases h : InInt64 v
        · exact ⟨_, by simp only [asLongLong, if_pos h]; rfl⟩
        · have hu : InUInt64 v := (or_iff_right h).mp hv
          have hneg : ¬ v < 0 := by have := hu.1; omega
          exact ⟨_, by simp only [asLongLong, if_neg h, raise, asUnsignedLongLong, if_neg hneg, if_pos hu]; rfl⟩
      | npInteger n =>
        cases hk
        obtain ⟨x, hx⟩ := npInteger_converts n
        exact ⟨_, by simp only [extractCudaArg, extractNpInteger, hx]; rfl⟩
      | float | npFloat16 | npFloat32 => cases hk; exact ⟨_, rfl⟩
      | _ => cases hnum
    obtain ⟨helper', h⟩ := ih flags.tail mid (fun a ha => hn a (List.mem_cons_of_mem _ ha)) hl
    exact ⟨helper', by rw [extractLoop, hone]; exact h⟩

theorem prepareParams_ok_iff {driver : Driver} {profile : PythonArgProfile} {pyargs : List PyObj} {helper : LaunchHelper}
    (hc : Classified profile.argKinds pyargs) (hn : ∀ arg ∈ pyargs, (number arg).isSome = true) :
    (∃ params, prepareParams driver profile pyargs helper = .ok params) ↔
      LongArgs (fun v => InInt64 v ∨ profile.fastExtractors.isEmpty = true ∧ InUInt64 v) pyargs := by
  unfold prepareParams
  by_cases hfast : profile.fastExtractors.isEmpty
  · simp only [hfast, if_true, true_and]
    rw [standardPath, extractCudaArgs]
    constructor
    · rintro ⟨params, h⟩
      cases hl : extractLoop driver pyargs profile.argKinds profile.constantArgFlags .empty with
      | error e => rw [hl] at h; cases h
      | ok helper' => exact (extractLoop_wrote hc hn hl).1
    · intro hl
      obtain ⟨helper', h⟩ := extractLoop_ok driver hc profile.constantArgFlags .empty hn hl
      exact ⟨_, by rw [h]; rfl⟩
  · obtain ⟨exs, hx⟩ := scalarExtractors_of_fast fun he : profile.fastExtractors = [] => hfast (by rw [he]; rfl)
    have hexs : profile.fastExtractors = exs := by rw [PythonArgProfile.fastExtractors, hx]; rfl
    simp only [hfast, Bool.false_eq_true, if_false, false_and, or_false]
    rw [fastPath, hexs]
    rcases fastLoop_spec (fastArgs_of_classified hc hx) helper.cuargs hx with ⟨hl, slots, -, hf, -⟩ | ⟨hl, e, hf⟩
    · exact iff_of_true ⟨_, by rw [hf]; rfl⟩ hl
    · refine iff_of_false ?_ hl
      rintro ⟨params, h⟩
      rw [hf] at h
      cases h

end NumbaCudaMlir.ExplicitLaunch
