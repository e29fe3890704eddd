import NumbaCudaMlir.Dtype
import NumbaCudaMlir.Python
import Mathlib.Tactic.IntervalCases

/-!
# Type strings

`parse_typestr`, which turns the type string of an array interface into a
DLPack dtype. A string is the list of its UTF-8 bytes; reading past its end
gives the terminating NUL.
-/

namespace NumbaCudaMlir

open CInt

structure DLDataType where
  code : UInt8
  bits : UInt8
  lanes : UInt16
  deriving DecidableEq, Repr

def kDLInt : UInt8 := 0
def kDLUInt : UInt8 := 1
def kDLFloat : UInt8 := 2
def kDLOpaqueHandle : UInt8 := 3
def kDLComplex : UInt8 := 5
def kDLBool : UInt8 := 6

/-! ## strtol -/

def isSpace (c : Char) : Bool := c = ' ' || ('\t' ≤ c && c ≤ '\r')

def readDigits (s : List Char) : Option (Nat × List Char) :=
  match s.takeWhile Char.isDigit with
  | [] => none
  | d :: ds => some (Nat.ofDigitChars 10 (d :: ds) 0, s.dropWhile Char.isDigit)

def readInt (s : List Char) : Option (Int × List Char) :=
  match s.dropWhile isSpace with
  | '-' :: s => (readDigits s).map fun (n, rest) => (-n, rest)
  | '+' :: s => (readDigits s).map fun (n, rest) => (n, rest)
  | s => (readDigits s).map fun (n, rest) => (n, rest)

/-- `strtol(s, &endptr, 10)`; `none` when no digit was read. -/
def strtol (s : List Char) : Option (Int × List Char) :=
  (readInt s).map fun (n, rest) => (max (-2 ^ 63) (min n (2 ^ 63 - 1)), rest)

/-! ## The parser -/

def charAt (str : List Char) (i : Nat) : Char := str.getD i '\x00'

def typestrCode (c : Char) : Option UInt8 :=
  match c with
  | 'b' => some kDLBool
  | 'i' => some kDLInt
  | 'u' => some kDLUInt
  | 'f' => some kDLFloat
  | 'V' => some kDLOpaqueHandle
  | 'c' => some kDLComplex
  | 'M' => some kDLInt
  | 'm' => some kDLInt
  | 'S' => some kDLOpaqueHandle
  | 'U' => some kDLOpaqueHandle
  | _ => none

def fixedBits (str : List Char) : Option UInt8 :=
  match charAt str 2, charAt str 3 with
  | '1', '\x00' => some 8
  | '2', '\x00' => some 16
  | '4', '\x00' => some 32
  | '8', '\x00' => some 64
  | '1', '6' => if charAt str 4 = '\x00' then some 128 else none
  | _, _ => none

def invalidByteSize {α : Type} (str : List Char) : Result α :=
  raise .typeError ("Invalid byte size in typestr: " ++ String.ofList (str.drop 2))

def parseTypestr (str : List Char) : Result DLDataType :=
  if str.length < 3 then
    raise .typeError ("__cuda_array_interface__['typestr'] has invalid value " ++ String.ofList str)
  else if charAt str 0 ≠ '<' ∧ charAt str 0 ≠ '|' then
    raise .typeError "Only little-endian types are supported"
  else
    match typestrCode (charAt str 1) with
    | none => raise .typeError ("Unsupported type code " ++ String.ofList [charAt str 1])
    | some code =>
      if code = kDLOpaqueHandle then
        match strtol (str.drop 2) with
        | none => invalidByteSize str
        | some (size, rest) =>
          if charAt rest 0 ≠ '\x00' ∨ size ≤ 0 then invalidByteSize str
          else .ok ⟨code, .ofNat size.toNat, .ofNat (size.toNat / 2 ^ 8)⟩
      else if charAt str 1 = 'M' ∨ charAt str 1 = 'm' then
        match strtol (str.drop 2) with
        | none => invalidByteSize str
        | some (size, _) =>
          if size ≤ 0 then invalidByteSize str
          else .ok ⟨code, .ofNat (size.toNat * 8), 1⟩
      else
        match fixedBits str with
        | none => raise .typeError ("Unsupported byte size in typestr: " ++ String.ofList (str.drop 2))
        | some bits => .ok ⟨code, if code = kDLComplex then bits / 2 else bits, 1⟩

def byteCount (str : List Char) : Int :=
  match readInt (str.drop 2) with
  | some (n, _) => n
  | none => 0

example : parseTypestr "<f8".toList = .ok ⟨kDLFloat, 64, 1⟩ := by decide

example : parseTypestr "<M8[ns]".toList = .ok ⟨kDLInt, 64, 1⟩ := by decide

/-! ## The width of an element -/

/-- The bytes of one component as `extract_cuda_array` computes them. -/
def bytewidth (dl : DLDataType) : Int := (dl.bits / 8).toNat

theorem strtol_eq_some {s rest : List Char} {size : Int} (h : strtol s = some (size, rest)) :
    ∃ n, readInt s = some (n, rest) ∧ size = max (-2 ^ 63) (min n (2 ^ 63 - 1)) := by
  unfold strtol at h
  rw [Option.map_eq_some_iff] at h
  obtain ⟨⟨n, r⟩, hn, he⟩ := h
  simp only [Prod.mk.injEq] at he
  obtain ⟨rfl, rfl⟩ := he
  exact ⟨n, hn, rfl⟩

theorem drop_eq_charAt {str : List Char} {i : Nat} (h : charAt str i ≠ '\x00') :
    str.drop i = charAt str i :: str.drop (i + 1) := by
  have hi : i < str.length := by
    by_contra hc
    exact h (by simp [charAt, List.getD, List.getElem?_eq_none (Nat.le_of_not_lt hc)])
  rw [List.drop_eq_getElem_cons hi]
  simp [charAt, List.getD, hi]

theorem takeWhile_nul {str : List Char} {i : Nat} (h : charAt str i = '\x00') :
    (str.drop i).takeWhile Char.isDigit = [] := by
  by_cases hi : i < str.length
  · have hc : str[i] = '\x00' := by simpa [charAt, List.getD, hi] using h
    rw [List.drop_eq_getElem_cons hi, hc]; rfl
  · rw [List.drop_eq_nil_of_le (by omega)]; rfl

theorem isSpace_of_isDigit {c : Char} (h : c.isDigit = true) : isSpace c = false ∧ c ≠ '-' ∧ c ≠ '+' := by
  have hc : 48 ≤ c.val.toNat ∧ c.val.toNat ≤ 57 := by
    simpa [Char.isDigit, UInt32.le_iff_toNat_le] using h
  refine ⟨?_, ?_, ?_⟩
  · have h1 : c ≠ ' ' := by rintro rfl; revert hc; decide
    have h2 : ¬ c ≤ '\r' := by
      rw [Char.le_def, UInt32.le_iff_toNat_le]
      have : ('\r' : Char).val.toNat = 13 := rfl
      omega
    simp [isSpace, h1, h2]
  · rintro rfl; revert hc; decide
  · rintro rfl; revert hc; decide

theorem readInt_digits {ds rest : List Char} (hne : ds ≠ []) (hd : ∀ c ∈ ds, c.isDigit = true)
    (hr : rest.takeWhile Char.isDigit = []) :
    readInt (ds ++ rest) = some (↑(Nat.ofDigitChars 10 ds 0), rest) := by
  have hdrop : rest.dropWhile Char.isDigit = rest := by
    have := List.takeWhile_append_dropWhile (p := Char.isDigit) (l := rest)
    rwa [hr, List.nil_append] at this
  have hdigits : readDigits (ds ++ rest) = some (Nat.ofDigitChars 10 ds 0, rest) := by
    unfold readDigits
    rw [List.takeWhile_append_of_pos hd, List.dropWhile_append_of_pos hd, hr, hdrop, List.append_nil]
    cases ds with
    | nil => exact absurd rfl hne
    | cons d ds => rfl
  cases ds with
  | nil => exact absurd rfl hne
  | cons d ds =>
    obtain ⟨hs, hm, hp⟩ := isSpace_of_isDigit (hd d (by simp))
    unfold readInt
    rw [List.cons_append, List.dropWhile_cons_of_neg (by simp [hs])]
    rw [List.cons_append] at hdigits
    split
    · next he => cases he; exact absurd rfl hm
    · next he => cases he; exact absurd rfl hp
    · rw [hdigits]; rfl

theorem fixedBits_eq_some {str : List Char} {bits : UInt8} (h : fixedBits str = some bits) :
    ∃ b : Nat, byteCount str = b ∧ b ∈ [1, 2, 4, 8, 16] ∧ bits = .ofNat (8 * b) := by
  have count (ds : List Char) {rest : List Char} (hs : str.drop 2 = ds ++ rest) (hne : ds ≠ [])
      (hd : ∀ c ∈ ds, c.isDigit = true) (hr : rest.takeWhile Char.isDigit = []) :
      byteCount str = (Nat.ofDigitChars 10 ds 0 : Nat) := by
    rw [byteCount, hs, readInt_digits hne hd hr]
  have one {c : Char} (h2 : charAt str 2 = c) (h3 : charAt str 3 = '\x00') (hc : c.isDigit = true) :
      byteCount str = (Nat.ofDigitChars 10 [c] 0 : Nat) := by
    have hs := @drop_eq_charAt str 2 (by rw [h2]; rintro rfl; revert hc; decide)
    rw [h2] at hs
    exact count [c] hs (by simp) (by simpa using hc) (takeWhile_nul h3)
  unfold fixedBits at h
  split at h
  · next h2 h3 => cases h; exact ⟨1, one h2 h3 rfl, by simp, rfl⟩
  · next h2 h3 => cases h; exact ⟨2, one h2 h3 rfl, by simp, rfl⟩
  · next h2 h3 => cases h; exact ⟨4, one h2 h3 rfl, by simp, rfl⟩
  · next h2 h3 => cases h; exact ⟨8, one h2 h3 rfl, by simp, rfl⟩
  · next h2 h3 =>
    split at h
    · next h4 =>
      cases h
      have hs2 := @drop_eq_charAt str 2 (by rw [h2]; decide)
      have hs3 := @drop_eq_charAt str 3 (by rw [h3]; decide)
      rw [h2, hs3, h3] at hs2
      exact ⟨16, count ['1', '6'] hs2 (by simp) (by simp) (takeWhile_nul h4), by simp, rfl⟩
    · cases h
  · cases h

theorem parseTypestr_cases {str : List Char} {dl : DLDataType} (h : parseTypestr str = .ok dl)
    (ho : dl.code ≠ kDLOpaqueHandle) :
    (∃ n, byteCount str = n ∧ 0 < n ∧ dl = ⟨kDLInt, .ofNat ((min n (2 ^ 63 - 1)).toNat * 8), 1⟩) ∨
    (∃ b : Nat, byteCount str = b ∧ b ∈ [1, 2, 4, 8, 16] ∧
      dl.bits = if dl.code = kDLComplex then .ofNat (8 * b) / 2 else .ofNat (8 * b)) := by
  unfold parseTypestr at h
  split at h
  · cases h
  split at h
  · cases h
  split at h
  · cases h
  next code hcode =>
    split at h
    · next hop =>
      -- The opaque kinds keep their code.
      split at h
      · cases h
      · split at h
        · cases h
        · cases h; exact absurd hop ho
    split at h
    · next hM =>
      have hci : code = kDLInt := by
        rcases hM with hM | hM <;> · rw [hM] at hcode; exact (Option.some.inj hcode).symm
      split at h
      · cases h
      · next size rest hs =>
        obtain ⟨n, hn, rfl⟩ := strtol_eq_some hs
        split at h
        · cases h
        · cases h
          refine .inl ⟨n, by rw [byteCount, hn], by omega, ?_⟩
          rw [hci, show max (-2 ^ 63) (min n (2 ^ 63 - 1)) = min n (2 ^ 63 - 1) by omega]
    · split at h
      · cases h
      · next bits hb =>
        cases h
        obtain ⟨b, hbc, hmem, rfl⟩ := fixedBits_eq_some hb
        exact .inr ⟨b, hbc, hmem, rfl⟩

/-- **The stride divisor.** It is the written byte count for the kinds that
are not complex below 32 bytes, and at most half of it for the others. -/
theorem bytewidth_spec {str : List Char} {dl : DLDataType} (h : parseTypestr str = .ok dl)
    (ho : dl.code ≠ kDLOpaqueHandle) :
    0 < byteCount str ∧
    ((bytewidth dl = byteCount str ∧ dl.code ≠ kDLComplex ∧ byteCount str < 32) ∨
      (2 * bytewidth dl ≤ byteCount str ∧ (dl.code = kDLComplex ∨ 32 ≤ byteCount str))) := by
  rcases parseTypestr_cases h ho with ⟨n, hn, hpos, rfl⟩ | ⟨b, hb, hmem, hbits⟩
  · have hw : bytewidth ⟨kDLInt, .ofNat ((min n (2 ^ 63 - 1)).toNat * 8), 1⟩
        = ((min n (2 ^ 63 - 1)).toNat % 32 : Nat) := by
      simp only [bytewidth, UInt8.toNat_div, UInt8.toNat_ofNat', UInt8.reduceToNat]
      omega
    rw [hw, hn]
    refine ⟨hpos, ?_⟩
    by_cases h32 : n < 32
    · exact .inl ⟨by omega, show kDLInt ≠ kDLComplex by decide, h32⟩
    · exact .inr ⟨by omega, .inr (by omega)⟩
  · rw [bytewidth, hbits, hb]
    by_cases hc : dl.code = kDLComplex
    · simp only [hc, if_true]
      simp only [List.mem_cons, List.not_mem_nil, or_false] at hmem
      rcases hmem with rfl | rfl | rfl | rfl | rfl <;> exact ⟨by decide, .inr ⟨by decide, .inl trivial⟩⟩
    · simp only [hc, if_false]
      simp only [List.mem_cons, List.not_mem_nil, or_false] at hmem
      rcases hmem with rfl | rfl | rfl | rfl | rfl <;>
        exact ⟨by decide, .inl ⟨by decide, hc, by decide⟩⟩

/-! ## Type strings of NumPy dtypes -/

theorem charAt_typestr_one (d : NpDType) : charAt d.typestr 1 = d.kindChar := by
  cases d with
  | numeric k s => cases k <;> cases s <;> rfl
  | _ => rfl

theorem parseTypestr_code {str : List Char} {dl : DLDataType} (h : parseTypestr str = .ok dl) :
    typestrCode (charAt str 1) = some dl.code := by
  unfold parseTypestr at h
  split at h
  · cases h
  split at h
  · cases h
  split at h
  · cases h
  next code hcode =>
    rw [hcode]
    split at h
    · split at h
      · cases h
      · split at h <;> cases h; rfl
    split at h
    · split at h
      · cases h
      · split at h <;> cases h; rfl
    · split at h <;> cases h; rfl

theorem code_eq_opaque_iff {d : NpDType} {dl : DLDataType} (h : parseTypestr d.typestr = .ok dl) :
    dl.code = kDLOpaqueHandle ↔ d.isOpaque = true := by
  have hc := parseTypestr_code h
  rw [charAt_typestr_one] at hc
  rw [← Option.some_inj, ← hc]
  cases d with
  | numeric k s => cases k <;> cases s <;> decide
  | _ => simp [NpDType.kindChar, NpDType.isOpaque, typestrCode, kDLInt, kDLOpaqueHandle]

theorem code_eq_complex_iff {d : NpDType} {dl : DLDataType} (h : parseTypestr d.typestr = .ok dl) :
    dl.code = kDLComplex ↔ d.isComplex = true := by
  have hc := parseTypestr_code h
  rw [charAt_typestr_one] at hc
  rw [← Option.some_inj, ← hc]
  cases d with
  | numeric k s => cases k <;> cases s <;> decide
  | _ => simp [NpDType.kindChar, NpDType.isComplex, typestrCode, kDLInt, kDLOpaqueHandle, kDLComplex]

theorem byteCount_typestr {d : NpDType} (ho : d.isOpaque = false) : byteCount d.typestr = d.itemsize := by
  have hsuffix (u : String) : (NpDType.unitSuffix u).takeWhile Char.isDigit = [] := by
    unfold NpDType.unitSuffix
    split <;> rfl
  have hdate (c : Char) (u : String) : byteCount ('<' :: c :: '8' :: NpDType.unitSuffix u) = 8 := by
    rw [byteCount, show ('<' :: c :: '8' :: NpDType.unitSuffix u).drop 2 = ['8'] ++ NpDType.unitSuffix u from rfl,
      readInt_digits (by simp) (by simp) (hsuffix u)]
    rfl
  cases d with
  | numeric k s => cases k <;> cases s <;> decide
  | datetime64 u => exact hdate 'M' u
  | timedelta64 u => exact hdate 'm' u
  | void | bytes | str => cases ho

theorem itemsize_lt_of_numeric {d : NpDType} {dl : DLDataType} (h : parseTypestr d.typestr = .ok dl)
    (ho : d.isOpaque = false) : (d.itemsize : Int) < 32 := by
  cases d with
  | numeric k s =>
    cases s with
    | s32 => cases k <;> cases h
    | _ => simp [NpDType.itemsize, ItemSize.bytes]
  | datetime64 | timedelta64 => simp [NpDType.itemsize]
  | void | bytes | str => cases ho

theorem byteCount_pos_of_opaque {str : List Char} {dl : DLDataType} (h : parseTypestr str = .ok dl)
    (ho : dl.code = kDLOpaqueHandle) : 0 < byteCount str := by
  unfold parseTypestr at h
  split at h
  · cases h
  split at h
  · cases h
  split at h
  · cases h
  next code hcode =>
    split at h
    · split at h
      · cases h
      · next size rest hs =>
        obtain ⟨n, hn, rfl⟩ := strtol_eq_some hs
        split at h
        · cases h
        · rw [byteCount, hn]; simp only; omega
    next hno =>
      have hcode' : dl.code = code := by
        split at h
        · split at h
          · cases h
          · split at h <;> cases h; rfl
        · split at h <;> cases h; rfl
      exact absurd (hcode' ▸ ho) hno

theorem itemsize_pos {d : NpDType} {dl : DLDataType} (h : parseTypestr d.typestr = .ok dl) : 0 < d.itemsize := by
  by_cases ho : d.isOpaque = true
  · have hpos := byteCount_pos_of_opaque h ((code_eq_opaque_iff h).mpr ho)
    have hcount (c₀ c : Char) (n : Nat) : byteCount (c₀ :: c :: Nat.toDigits 10 n) = n := by
      have hne : Nat.toDigits 10 n ≠ [] := Nat.toDigits_ne_nil
      have hread := @readInt_digits (Nat.toDigits 10 n) [] hne
        (fun _ hc => Nat.isDigit_of_mem_toDigits (by decide) (by decide) hc) rfl
      rw [List.append_nil, Nat.ofDigitChars_ten_toDigits] at hread
      rw [byteCount, show (c₀ :: c :: Nat.toDigits 10 n).drop 2 = Nat.toDigits 10 n from rfl, hread]
    cases d with
    | numeric | datetime64 | timedelta64 => cases ho
    | void | bytes => rw [NpDType.typestr, hcount] at hpos; simpa [NpDType.itemsize] using hpos
    | str => rw [NpDType.typestr, hcount] at hpos; simp only [NpDType.itemsize]; omega
  · have hno : dl.code ≠ kDLOpaqueHandle := fun hc => ho ((code_eq_opaque_iff h).mp hc)
    have hpos := (bytewidth_spec h hno).1
    rw [byteCount_typestr (by simpa using ho)] at hpos
    omega

end NumbaCudaMlir
