import NumbaCudaMlir.Llvm70
import Mathlib.Data.List.Forall2
import Mathlib.Tactic.Ring

/-!
# Constants keep their bits

The translated constant holds the bits of the attribute, leaf by leaf, where no
integer takes more than 64 bits, no half or float is a signaling NaN, an array
of elements belongs to a struct, and the initializer of a global is a string,
an integer or zero.
-/

namespace NumbaCudaMlir.Llvm70

/-! ## Bits -/

structure Leaf where
  width : Nat
  bits : BitVec width

mutual

def Attr.leaves : Attr → List Leaf
  | .integer bits => [⟨_, bits⟩]
  | .float kind bits => [⟨kind.bits, bits⟩]
  | .string bytes => bytes.map fun b => ⟨8, b⟩
  | .array elems => Attr.allLeaves elems
  | .denseInt d => d.values.map fun x => ⟨_, x⟩
  | .denseFloat kind d => d.values.map fun x => ⟨kind.bits, x⟩

def Attr.allLeaves : List Attr → List Leaf
  | [] => []
  | a :: as => a.leaves ++ Attr.allLeaves as

end

mutual

def LlvmType.widths : LlvmType → List Nat
  | .int width => [width]
  | .fp kind => [kind.bits]
  | .array elem count | .vector elem count => (List.replicate count elem.widths).flatten
  | .struct _ _ body => LlvmType.allWidths body

def LlvmType.allWidths : List LlvmType → List Nat
  | [] => []
  | t :: ts => t.widths ++ LlvmType.allWidths ts

end

mutual

def Constant.leaves : Constant → List Leaf
  | .int bits => [⟨_, bits⟩]
  | .fp kind bits => [⟨kind.bits, bits⟩]
  | .array _ elems | .vector elems | .struct _ _ elems => Constant.allLeaves elems
  | .null type => type.widths.map fun width => ⟨width, 0⟩

def Constant.allLeaves : List Constant → List Leaf
  | [] => []
  | c :: cs => c.leaves ++ Constant.allLeaves cs

end

mutual

def Constant.type : Constant → LlvmType
  | @Constant.int width _ => .int width
  | .fp kind _ => .fp kind
  | .array elem elems => .array elem elems.length
  | .vector elems => .vector (Constant.headType elems) elems.length
  | .struct name packed elems => .struct name packed (Constant.types elems)
  | .null type => type

def Constant.headType : List Constant → LlvmType
  | [] => .int 0
  | c :: _ => c.type

def Constant.types : List Constant → List LlvmType
  | [] => []
  | c :: cs => c.type :: Constant.types cs

end

/-! ## Laws -/

/-- An error, or a constant of the type with the bits of the attribute. -/
def Exact (type : MlirType) (attr : Attr) : Outcome Constant → Prop
  | .ok c => c.type = convertType type ∧ c.leaves = attr.leaves
  | .error .error => True
  | .error .abort => False

/-- A shape of arrays around elements of one type. -/
inductive Shaped (elem : MlirType) : Nat → MlirType → Prop where
  | array (count : Nat) : Shaped elem count (.array elem count)
  | nested {m : Nat} {t : MlirType} (count : Nat) : Shaped elem m t → Shaped elem (count * m) (.array t count)

mutual

/-- The attributes that the verifier of MLIR accepts for a type. -/
inductive HasType : MlirType → Attr → Prop where
  | integer {width : Nat} (bits : BitVec width) : HasType (.integer width) (.integer bits)
  | float (kind : FloatKind) (bits : BitVec kind.bits) : HasType (.float kind) (.float kind bits)
  | string (bytes : List (BitVec 8)) : HasType (.array (.integer 8) bytes.length) (.string bytes)
  | struct {name : Option String} {packed : Bool} {body : List MlirType} {elems : List Attr} :
      HasTypes body elems → HasType (.struct name packed body) (.array elems)
  | array {t : MlirType} {count : Nat} {elems : List Attr} : HasTypes (List.replicate count t) elems → HasType (.array t count) (.array elems)
  | denseIntVector {width : Nat} (d : Dense width) : 0 < d.count → HasType (.vector (.integer width) d.count) (.denseInt d)
  | denseInt {width : Nat} {d : Dense width} {t : MlirType} : Shaped (.integer width) d.count t → HasType t (.denseInt d)
  | denseFloatVector (kind : FloatKind) (d : Dense kind.bits) : 0 < d.count → HasType (.vector (.float kind) d.count) (.denseFloat kind d)
  | denseFloat {kind : FloatKind} {d : Dense kind.bits} {t : MlirType} : Shaped (.float kind) d.count t → HasType t (.denseFloat kind d)

inductive HasTypes : List MlirType → List Attr → Prop where
  | nil : HasTypes [] []
  | cons {t : MlirType} {a : Attr} {ts : List MlirType} {as : List Attr} : HasType t a → HasTypes ts as → HasTypes (t :: ts) (a :: as)

end

/-! ## Conditions -/

def mantissaBits : FloatKind → Nat
  | .bfloat => 7
  | .half => 10
  | .float => 23
  | .double => 52

def quietBit (kind : FloatKind) : BitVec kind.bits := BitVec.twoPow kind.bits (mantissaBits kind - 1)

/-- A NaN without the quiet bit. -/
def Signaling (kind : FloatKind) (bits : BitVec kind.bits) : Prop :=
  let fraction := bits.toNat % 2 ^ mantissaBits kind
  bits.toNat / 2 ^ mantissaBits kind % 2 ^ (kind.bits - 1 - mantissaBits kind) = 2 ^ (kind.bits - 1 - mantissaBits kind) - 1 ∧
    0 < fraction ∧ fraction < 2 ^ (mantissaBits kind - 1)

instance (kind : FloatKind) (bits : BitVec kind.bits) : Decidable (Signaling kind bits) := inferInstanceAs (Decidable (_ ∧ _ ∧ _))

/-- `APFloat` widens exactly, and makes a signaling NaN quiet on its way to a wider format. -/
def FloatConversions.RoundTrips (conv : FloatConversions) : Prop :=
  (∀ bits, conv.ofDouble .double (conv.getValueAsDouble .double bits) = bits) ∧
    ∀ kind, kind ≠ .double → ∀ bits, conv.ofDouble kind (conv.getValueAsDouble kind bits) = if Signaling kind bits then bits ||| quietBit kind else bits

def FloatKept (kind : FloatKind) (bits : BitVec kind.bits) : Prop := kind = .bfloat ∨ kind = .double ∨ ¬ Signaling kind bits

/-- An integer or a float, which a constant array takes. -/
def Attr.IsScalar : Attr → Prop
  | .integer _ | .float .. => True
  | .string _ | .array _ | .denseInt _ | .denseFloat .. => False

/-- An integer of at most 64 bits. -/
def Attr.Fits : Attr → Prop
  | .integer bits => bits.toNat < 2 ^ 64
  | .float .. | .string _ | .array _ | .denseInt _ | .denseFloat .. => True

def Attr.Kept : Attr → Prop
  | .integer bits => bits.toNat < 2 ^ 64
  | .float kind bits => FloatKept kind bits
  | .string _ | .array _ | .denseInt _ | .denseFloat .. => True

def MlirType.IsStruct : MlirType → Prop
  | .struct .. => True
  | .integer _ | .index | .float _ | .array .. | .vector .. => False

def MlirType.IsVector : MlirType → Prop
  | .vector .. => True
  | .integer _ | .index | .float _ | .array .. | .struct .. => False

/-- An error at an element that is no scalar, or an array of scalars for a struct. -/
def ArrayOk (type : MlirType) (elems : List Attr) : Prop :=
  (∃ before e after, elems = before ++ e :: after ∧ ¬ e.IsScalar ∧ ∀ a ∈ before, a.IsScalar ∧ a.Fits) ∨
    type.IsStruct ∧ ∀ a ∈ elems, a.IsScalar ∧ a.Kept

def ConstantOk (type : MlirType) : Attr → Prop
  | .integer bits => bits.toNat < 2 ^ 64
  | .float kind bits => FloatKept kind bits
  | .array elems => ArrayOk type elems
  | .denseInt d => type.IsVector → ∀ x ∈ d.values, x.toNat < 2 ^ 64
  | .denseFloat .. | .string _ => True

def GlobalOk : Attr → Prop
  | .string _ => True
  | .integer bits => bits.toNat < 2 ^ 64
  | a => ∀ leaf ∈ a.leaves, leaf.bits = 0

/-! ## Sequences -/

theorem mapM_eq_ok {α β : Type} {f : α → Outcome β} : ∀ {xs : List α} {ys : List β}, xs.mapM f = .ok ys ↔ List.Forall₂ (fun x y => f x = .ok y) xs ys
  | [], ys => by cases ys <;> simp [pure, Except.pure]
  | x :: xs, ys => by
    rw [List.mapM_cons]
    cases hx : f x with
    | error e => cases ys <;> simp [bind, Except.bind, hx]
    | ok y =>
      cases hxs : xs.mapM f with
      | error e =>
        have hno : ∀ zs, ¬ List.Forall₂ (fun x y => f x = .ok y) xs zs := fun zs h => by simp [mapM_eq_ok.mpr h] at hxs
        cases ys <;> simp [bind, Except.bind, hx, hno]
      | ok zs =>
        cases ys with
        | nil => simp [bind, Except.bind, pure, Except.pure]
        | cons z ws =>
          simp only [bind, Except.bind, pure, Except.pure, Except.ok.injEq, List.cons.injEq, List.forall₂_cons, hx]
          rw [← mapM_eq_ok, hxs, Except.ok.injEq]

theorem mapM_eq_error {α β : Type} {f : α → Outcome β} {e : Failure} : ∀ {xs : List α},
    xs.mapM f = .error e ↔ ∃ before x after, xs = before ++ x :: after ∧ f x = .error e ∧ ∀ a ∈ before, ∃ y, f a = .ok y
  | [] => by simp [pure, Except.pure]
  | x :: xs => by
    rw [List.mapM_cons]
    cases hx : f x with
    | error e' =>
      simp only [bind, Except.bind, Except.error.injEq]
      constructor
      · rintro rfl
        exact ⟨[], x, xs, rfl, hx, by simp⟩
      · rintro ⟨before, y, after, hcons, hy, hbefore⟩
        cases before with
        | nil =>
          cases hcons
          rw [hx] at hy
          exact Except.error.inj hy
        | cons z zs =>
          cases hcons
          obtain ⟨w, hw⟩ := hbefore x List.mem_cons_self
          rw [hx] at hw
          cases hw
    | ok w =>
      have hcons : (xs.mapM f = .error e) ↔ _ := mapM_eq_error
      have hstep : (do let ys ← xs.mapM f; pure (w :: ys) : Outcome (List β)) = .error e ↔ xs.mapM f = .error e := by
        cases xs.mapM f <;> simp [bind, Except.bind, pure, Except.pure]
      refine hstep.trans (hcons.trans ⟨?_, ?_⟩)
      · rintro ⟨before, y, after, rfl, hy, hbefore⟩
        exact ⟨x :: before, y, after, rfl, hy, List.forall_mem_cons.mpr ⟨⟨w, hx⟩, hbefore⟩⟩
      · rintro ⟨before, y, after, hxs, hy, hbefore⟩
        cases before with
        | nil =>
          cases hxs
          rw [hx] at hy
          cases hy
        | cons z zs =>
          cases hxs
          exact ⟨zs, y, after, rfl, hy, fun a ha => hbefore a (List.mem_cons_of_mem _ ha)⟩

/-! ## Bytes -/

theorem littleEndian_length : ∀ n x : Nat, (littleEndian n x).length = n
  | 0, _ => rfl
  | n + 1, x => congrArg (· + 1) (littleEndian_length n (x / 256))

theorem ofBytes_littleEndian : ∀ {n x : Nat}, x < 256 ^ n → ofBytes (littleEndian n x) = x
  | 0, x, h => by
    rw [Nat.pow_zero, Nat.lt_one_iff] at h
    exact h.symm
  | n + 1, x, h => by
    have hdiv : x / 256 < 256 ^ n := Nat.div_lt_of_lt_mul (by rwa [Nat.pow_succ, Nat.mul_comm] at h)
    rw [littleEndian, ofBytes, ofBytes_littleEndian hdiv, BitVec.toNat_ofNat]
    exact Nat.mod_add_div x 256

theorem flatMap_slice {α β : Type} {f : α → List β} {n : Nat} (hf : ∀ x, (f x).length = n) : ∀ {xs : List α} {i : Nat} {x : α},
    xs[i]? = some x → ((xs.flatMap f).drop (i * n)).take n = f x
  | [], i, x, h => by simp at h
  | y :: ys, 0, x, h => by
    rw [List.getElem?_cons_zero, Option.some_inj] at h
    subst h
    rw [Nat.zero_mul, List.drop_zero, List.flatMap_cons, ← hf y, List.take_left]
  | y :: ys, i + 1, x, h => by
    have hdrop : (f y ++ ys.flatMap f).drop ((i + 1) * n) = (ys.flatMap f).drop (i * n) := by
      rw [show (i + 1) * n = (f y).length + i * n by rw [hf y]; ring, List.drop_append]
      simp
    rw [List.flatMap_cons, hdrop]
    exact flatMap_slice hf (by simpa using h)

/-! ## Scalars -/

theorem constIntAttr_eq {w : Nat} (bits : BitVec w) :
    constIntAttr (.int w) bits = if bits.toNat < 2 ^ 64 then .ok (.int bits) else .error .abort := by
  rw [constIntAttr, toUInt64]
  split
  · rename_i h
    have hset : (BitVec.ofNat 64 bits.toNat).setWidth w = bits := by
      apply BitVec.eq_of_toNat_eq
      rw [BitVec.toNat_setWidth, BitVec.toNat_ofNat, Nat.mod_eq_of_lt h, Nat.mod_eq_of_lt bits.isLt]
    refine congrArg (fun x => Except.ok (Constant.int x)) ?_
    by_cases hw : w ≤ 64
    · rw [BitVec.signExtend_eq_setWidth_of_le _ hw, ite_self, hset]
    · have hmsb : bits.msb = false := by
        rw [BitVec.msb_eq_false_iff_two_mul_lt]
        calc 2 * bits.toNat < 2 * 2 ^ 64 := by omega
          _ = 2 ^ 65 := by norm_num
          _ ≤ 2 ^ w := Nat.pow_le_pow_right (by decide) (by omega)
      rw [hmsb, if_neg (by decide), hset]
  · rfl

theorem constBF16_eq (bits : BitVec 16) : constBF16 bits = .ok (.int bits) := by
  rw [constBF16, constInt, if_neg (by decide), BitVec.setWidth_setWidth_of_le _ (by decide), BitVec.setWidth_eq]

/-- The float with the bits that the translation leaves it. -/
def keptBits (kind : FloatKind) (bits : BitVec kind.bits) : BitVec kind.bits :=
  if kind = .bfloat ∨ kind = .double ∨ ¬ Signaling kind bits then bits else bits ||| quietBit kind

def floatConstant : (kind : FloatKind) → BitVec kind.bits → Constant
  | .bfloat, bits => .int bits
  | kind, bits => .fp kind bits

theorem constFloatAttr_eq {conv : FloatConversions} (hconv : conv.RoundTrips) (kind : FloatKind) (bits : BitVec kind.bits) :
    constFloatAttr conv (convertType (.float kind)) kind bits = .ok (floatConstant kind (keptBits kind bits)) := by
  obtain ⟨hdouble, hother⟩ := hconv
  cases kind with
  | bfloat =>
    refine (constBF16_eq bits).trans ?_
    simp [floatConstant, keptBits]
  | double =>
    refine (congrArg (fun x => Except.ok (Constant.fp .double x)) (hdouble bits)).trans ?_
    simp [floatConstant, keptBits]
  | half =>
    refine (congrArg (fun x => Except.ok (Constant.fp .half x)) (hother .half (by decide) bits)).trans ?_
    simp [floatConstant, keptBits, ite_not]
  | float =>
    refine (congrArg (fun x => Except.ok (Constant.fp .float x)) (hother .float (by decide) bits)).trans ?_
    simp [floatConstant, keptBits, ite_not]

theorem floatConstant_type (kind : FloatKind) (bits : BitVec kind.bits) : (floatConstant kind bits).type = convertType (.float kind) := by
  cases kind <;> rfl

theorem floatConstant_leaves (kind : FloatKind) (bits : BitVec kind.bits) : (floatConstant kind bits).leaves = [⟨kind.bits, bits⟩] := by
  cases kind <;> rfl

theorem keptBits_iff (kind : FloatKind) (bits : BitVec kind.bits) : keptBits kind bits = bits ↔ FloatKept kind bits := by
  unfold keptBits FloatKept
  by_cases h : kind = .bfloat ∨ kind = .double ∨ ¬ Signaling kind bits
  · simp [h]
  · simp only [h, if_false, iff_false]
    intro heq
    have hpos : mantissaBits kind - 1 < kind.bits ∧ mantissaBits kind - 1 < mantissaBits kind := by cases kind <;> decide
    have hbit : bits.getLsbD (mantissaBits kind - 1) = true := by
      rw [← heq, BitVec.getLsbD_or, quietBit, BitVec.getLsbD_twoPow]
      simp [hpos.1]
    have hsignaling : Signaling kind bits := not_not.mp (not_or.mp (not_or.mp h).2).2
    have hge : 2 ^ (mantissaBits kind - 1) ≤ bits.toNat % 2 ^ mantissaBits kind := by
      refine Nat.ge_two_pow_of_testBit ?_
      rw [Nat.testBit_mod_two_pow]
      simp [BitVec.testBit_toNat, hpos.2, hbit]
    exact absurd hsignaling.2.2 (by omega)

/-! ## Elements -/

def scalarConstant : Attr → Constant
  | .integer bits => .int bits
  | .float kind bits => floatConstant kind (keptBits kind bits)
  | .string _ | .array _ | .denseInt _ | .denseFloat .. => .null (.int 0)

theorem constElement_eq {conv : FloatConversions} (hconv : conv.RoundTrips) {a : Attr} (h : a.IsScalar) :
    (a.Fits → constElement conv a = .ok (scalarConstant a)) ∧ (¬ a.Fits → constElement conv a = .error .abort) := by
  cases a with
  | integer bits =>
    simp only [Attr.Fits, constElement, scalarConstant, constIntAttr_eq]
    exact ⟨fun h => if_pos h, fun h => if_neg h⟩
  | float kind bits => exact ⟨fun _ => constFloatAttr_eq hconv kind bits, fun h => absurd trivial h⟩
  | string | array | denseInt | denseFloat => exact h.elim

theorem constElement_error (conv : FloatConversions) {a : Attr} (h : ¬ a.IsScalar) : constElement conv a = .error .error := by
  cases a with
  | integer | float => exact absurd trivial h
  | string | array | denseInt | denseFloat => rfl

theorem scalarConstant_type {t : MlirType} {a : Attr} (ht : HasType t a) (h : a.IsScalar) : (scalarConstant a).type = convertType t := by
  cases ht with
  | integer => rfl
  | float kind => exact floatConstant_type kind _
  | string | struct | array | denseIntVector | denseInt | denseFloatVector | denseFloat => exact h.elim

theorem leaf_inj {w : Nat} {x y : BitVec w} (h : Leaf.mk w x = Leaf.mk w y) : x = y := by
  cases h
  rfl

theorem scalarConstant_leaves {a : Attr} (h : a.IsScalar) (hfits : a.Fits) : (scalarConstant a).leaves = a.leaves ↔ a.Kept := by
  cases a with
  | integer bits => exact ⟨fun _ => hfits, fun _ => rfl⟩
  | float kind bits =>
    rw [scalarConstant, floatConstant_leaves, Attr.leaves, List.cons.injEq, and_iff_left rfl]
    refine Iff.trans ?_ (keptBits_iff kind bits)
    exact ⟨leaf_inj, fun h => congrArg (Leaf.mk kind.bits) h⟩
  | string | array | denseInt | denseFloat => exact h.elim

theorem constElement_eq_ok {conv : FloatConversions} (hconv : conv.RoundTrips) {a : Attr} {c : Constant} :
    constElement conv a = .ok c ↔ (a.IsScalar ∧ a.Fits) ∧ c = scalarConstant a := by
  by_cases h : a.IsScalar
  · obtain ⟨hok, habort⟩ := constElement_eq hconv h
    by_cases hfits : a.Fits
    · rw [hok hfits, Except.ok.injEq, eq_comm]
      simp [h, hfits]
    · rw [habort hfits]
      simp [hfits]
  · rw [constElement_error conv h]
    simp [h]

theorem constElements_eq_ok {conv : FloatConversions} (hconv : conv.RoundTrips) : ∀ {elems : List Attr} {cs : List Constant},
    elems.mapM (constElement conv) = .ok cs ↔ (∀ a ∈ elems, a.IsScalar ∧ a.Fits) ∧ cs = elems.map scalarConstant := by
  intro elems cs
  rw [mapM_eq_ok]
  simp only [constElement_eq_ok hconv]
  constructor
  · intro h
    induction h with
    | nil => simp
    | cons hx _ ih => exact ⟨List.forall_mem_cons.mpr ⟨hx.1, ih.1⟩, by rw [List.map_cons, hx.2, ih.2]⟩
  · rintro ⟨h, rfl⟩
    rw [List.forall₂_map_right_iff]
    exact List.forall₂_same.mpr fun a ha => ⟨h a ha, rfl⟩

theorem types_scalarConstant : ∀ {ts : List MlirType} {elems : List Attr}, HasTypes ts elems → (∀ a ∈ elems, a.IsScalar) →
    Constant.types (elems.map scalarConstant) = convertTypes ts
  | [], _, .nil, _ => rfl
  | _ :: _, _, .cons h hs, hscalar => by
    obtain ⟨ha, has⟩ := List.forall_mem_cons.mp hscalar
    rw [List.map_cons, Constant.types, convertTypes, scalarConstant_type h ha, types_scalarConstant hs has]

theorem leaves_length : ∀ {a : Attr}, a.IsScalar → a.leaves.length = 1 ∧ (scalarConstant a).leaves.length = 1
  | .integer _, _ => ⟨rfl, rfl⟩
  | .float kind _, _ => ⟨rfl, congrArg List.length (floatConstant_leaves kind _)⟩

theorem allLeaves_scalarConstant : ∀ {elems : List Attr}, (∀ a ∈ elems, a.IsScalar ∧ a.Fits) →
    (Constant.allLeaves (elems.map scalarConstant) = Attr.allLeaves elems ↔ ∀ a ∈ elems, a.Kept)
  | [], _ => by simp [Constant.allLeaves, Attr.allLeaves]
  | a :: as, h => by
    obtain ⟨⟨hscalar, hfits⟩, has⟩ := List.forall_mem_cons.mp h
    obtain ⟨h1, h2⟩ := leaves_length hscalar
    rw [List.map_cons, Constant.allLeaves, Attr.allLeaves, List.forall_mem_cons, ← allLeaves_scalarConstant has,
      ← scalarConstant_leaves hscalar hfits]
    exact ⟨fun he => List.append_inj he (h2.trans h1.symm), fun ⟨ha, hs⟩ => by rw [ha, hs]⟩

theorem Attr.Kept.fits {a : Attr} (h : a.Kept) : a.Fits := by
  cases a with
  | integer => exact h
  | float | string | array | denseInt | denseFloat => trivial

theorem arrayOk_of_ok {type : MlirType} {elems : List Attr} (hall : ∀ a ∈ elems, a.IsScalar ∧ a.Fits) :
    ArrayOk type elems ↔ type.IsStruct ∧ ∀ a ∈ elems, a.Kept := by
  constructor
  · rintro (⟨before, e, after, rfl, he, -⟩ | ⟨hstruct, hkept⟩)
    · exact absurd (hall e (by simp)).1 he
    · exact ⟨hstruct, fun a ha => (hkept a ha).2⟩
  · rintro ⟨hstruct, hkept⟩
    exact .inr ⟨hstruct, fun a ha => ⟨(hall a ha).1, hkept a ha⟩⟩

theorem arrayOk_of_error {conv : FloatConversions} (hconv : conv.RoundTrips) {type : MlirType} {elems : List Attr} {e : Failure}
    (h : elems.mapM (constElement conv) = .error e) : ArrayOk type elems ↔ e = .error := by
  obtain ⟨before, x, after, hsplit, hx, hbefore⟩ := mapM_eq_error.mp h
  have hall : ∀ a ∈ before, a.IsScalar ∧ a.Fits := fun a ha => by
    obtain ⟨c, hc⟩ := hbefore a ha
    exact ((constElement_eq_ok hconv).mp hc).1
  by_cases hscalar : x.IsScalar
  · have hnot : ¬ x.Fits := fun hfits => by simp [(constElement_eq hconv hscalar).1 hfits] at hx
    obtain rfl : Failure.abort = e := by
      rw [(constElement_eq hconv hscalar).2 hnot] at hx
      exact Except.error.inj hx
    simp only [reduceCtorEq, iff_false]
    rintro (⟨before', y, after', heq, hy, hbefore'⟩ | ⟨-, hkept⟩)
    · have herror := mapM_eq_error.mpr ⟨before', y, after', heq, constElement_error conv hy, fun a ha =>
        ⟨_, (constElement_eq hconv (hbefore' a ha).1).1 (hbefore' a ha).2⟩⟩
      rw [h] at herror
      cases herror
    · exact hnot (hkept x (by simp [hsplit])).2.fits
  · rw [constElement_error conv hscalar, Except.error.injEq] at hx
    exact ⟨fun _ => hx.symm, fun _ => .inl ⟨before, x, after, hsplit, hscalar, hall⟩⟩

/-! ## Dense elements -/

theorem values_length {w : Nat} (d : Dense w) : d.values.length = d.count := by
  unfold Dense.values
  have hsized := d.sized
  cases hs : d.splat with
  | true =>
    rw [hs, if_pos rfl] at hsized
    simp [hsized]
  | false => simpa [hs] using hsized

theorem values_getElem? {w : Nat} (d : Dense w) {i : Nat} (hi : i < d.count) :
    ∃ x, d.values[i]? = some x ∧ d.data[if d.splat then 0 else i]? = some x := by
  unfold Dense.values
  have hsized := d.sized
  cases hs : d.splat with
  | true =>
    rw [hs, if_pos rfl, List.length_eq_one_iff] at hsized
    obtain ⟨x, hx⟩ := hsized
    refine ⟨x, ?_, by simp [hx]⟩
    simp [hx, hi]
  | false =>
    have hlt : i < d.data.length := by
      rw [hsized, hs, if_neg (by decide)]
      exact hi
    exact ⟨d.data[i], by simp, by simp⟩

theorem denseFloatElement_eq (kind : FloatKind) (d : Dense kind.bits) {i : Nat} (hi : i < d.count) :
    ∃ x, d.values[i]? = some x ∧ denseFloatElement kind d i = floatConstant kind x := by
  obtain ⟨x, hvalue, hdata⟩ := values_getElem? d hi
  refine ⟨x, hvalue, ?_⟩
  have hbytes : 256 ^ (kind.bits / 8) = 2 ^ kind.bits ∧ kind.bits ≤ 64 := by cases kind <;> decide
  have hslice := flatMap_slice (fun y : BitVec kind.bits => littleEndian_length (kind.bits / 8) y.toNat) hdata
  have hoffset : (if d.splat then 0 else i * (kind.bits / 8)) = (if d.splat then 0 else i) * (kind.bits / 8) := by
    split <;> simp
  have hbits : (memcpyBits (getRawData d) (if d.splat then 0 else i * (kind.bits / 8)) (kind.bits / 8)).setWidth kind.bits = x := by
    rw [memcpyBits, getRawData, hoffset, hslice, ofBytes_littleEndian (by rw [hbytes.1]; exact x.isLt)]
    apply BitVec.eq_of_toNat_eq
    have hlt : x.toNat < 2 ^ 64 := x.isLt.trans_le (Nat.pow_le_pow_right (by decide) hbytes.2)
    rw [BitVec.toNat_setWidth, BitVec.toNat_ofNat, Nat.mod_eq_of_lt hlt, Nat.mod_eq_of_lt x.isLt]
  cases kind with
  | bfloat => exact congrArg Constant.int hbits
  | half => exact congrArg (Constant.fp .half) hbits
  | float => exact congrArg (Constant.fp .float) hbits
  | double => exact congrArg (Constant.fp .double) hbits

theorem denseFloat_eq (kind : FloatKind) (d : Dense kind.bits) :
    (List.range d.count).map (denseFloatElement kind d) = d.values.map (floatConstant kind) := by
  refine List.ext_getElem? fun i => ?_
  by_cases hi : i < d.count
  · obtain ⟨x, hvalue, helement⟩ := denseFloatElement_eq kind d hi
    simp [hi, hvalue, helement]
  · rw [List.getElem?_eq_none (by simpa using hi), List.getElem?_eq_none (by rw [List.length_map, values_length]; omega)]

theorem allLeaves_map {α : Type} {f : α → Constant} {g : α → Leaf} (h : ∀ x, (f x).leaves = [g x]) : ∀ xs : List α,
    Constant.allLeaves (xs.map f) = xs.map g
  | [] => rfl
  | x :: xs => by rw [List.map_cons, Constant.allLeaves, h, allLeaves_map h xs]; rfl

theorem headType_map {α : Type} {f : α → Constant} {t : LlvmType} (h : ∀ x, (f x).type = t) {xs : List α} (hpos : 0 < xs.length) :
    Constant.headType (xs.map f) = t := by
  cases xs with
  | nil => simp at hpos
  | cons x xs => exact h x

theorem constInts_eq {w : Nat} : ∀ xs : List (BitVec w),
    xs.mapM (fun x => constIntAttr (.int w) x) = if ∀ x ∈ xs, x.toNat < 2 ^ 64 then .ok (xs.map Constant.int) else .error .abort
  | [] => by simp [pure, Except.pure]
  | x :: xs => by
    rw [List.mapM_cons, constIntAttr_eq, constInts_eq xs]
    simp only [List.forall_mem_cons]
    by_cases hx : x.toNat < 2 ^ 64
    · by_cases hxs : ∀ y ∈ xs, y.toNat < 2 ^ 64
      · rw [if_pos hx, if_pos hxs, if_pos ⟨hx, hxs⟩]
        rfl
      · simp only [hx, hxs, and_false, if_true, if_false]
        rfl
    · simp only [hx, false_and, if_false]
      rfl

/-! ## Constants -/

theorem exact_ok {type : MlirType} {attr : Attr} {c : Constant} (ht : c.type = convertType type) :
    Exact type attr (.ok c) ↔ c.leaves = attr.leaves := and_iff_right ht

theorem array_exact_iff {conv : FloatConversions} (hconv : conv.RoundTrips) {type : MlirType} {elems : List Attr} (ht : HasType type (.array elems)) :
    Exact type (.array elems) (translateConstantOp conv type (.array elems)) ↔ ArrayOk type elems := by
  rw [translateConstantOp]
  cases hm : elems.mapM (constElement conv) with
  | error e =>
    rw [arrayOk_of_error hconv hm]
    cases e <;> simp [bind, Except.bind, Exact]
  | ok cs =>
    obtain ⟨hall, rfl⟩ := (constElements_eq_ok hconv).mp hm
    rw [arrayOk_of_ok hall]
    cases ht with
    | @struct name packed body _ hs =>
      have htypes := types_scalarConstant hs fun a ha => (hall a ha).1
      have hname : (if name.isSome then (.ok (.struct name packed (elems.map scalarConstant)) : Outcome Constant)
          else .ok (.struct none packed (elems.map scalarConstant))) = .ok (.struct name packed (elems.map scalarConstant)) := by
        cases name <;> rfl
      simp only [bind, Except.bind, hname]
      rw [exact_ok (by rw [Constant.type, htypes, convertType]), Constant.leaves, Attr.leaves, allLeaves_scalarConstant hall]
      exact (and_iff_right trivial).symm
    | array hs =>
      simp [bind, Except.bind, Exact, Constant.type, convertType, MlirType.IsStruct]

theorem Shaped.eq_array {elem t : MlirType} {n : Nat} (h : Shaped elem n t) : ∃ e count, t = .array e count := by
  cases h with
  | array count => exact ⟨_, _, rfl⟩
  | nested count _ => exact ⟨_, _, rfl⟩

theorem constant_exact_iff {conv : FloatConversions} (hconv : conv.RoundTrips) {type : MlirType} {attr : Attr} (ht : HasType type attr) :
    Exact type attr (translateConstantOp conv type attr) ↔ ConstantOk type attr := by
  cases ht with
  | integer bits =>
    rw [translateConstantOp, convertType, constIntAttr_eq, ConstantOk]
    split
    · rename_i h
      exact iff_of_true ⟨rfl, rfl⟩ h
    · rename_i h
      exact iff_of_false id h
  | float kind bits =>
    rw [translateConstantOp, constFloatAttr_eq hconv, exact_ok (floatConstant_type kind _), ConstantOk, ← keptBits_iff, floatConstant_leaves,
      Attr.leaves, List.cons.injEq, and_iff_left rfl]
    exact ⟨leaf_inj, fun h => congrArg (Leaf.mk kind.bits) h⟩
  | string bytes => exact iff_of_true trivial trivial
  | struct hs => exact array_exact_iff hconv (.struct hs)
  | array hs => exact array_exact_iff hconv (.array hs)
  | @denseIntVector width d hpos =>
    have hlength : 0 < d.values.length := by rwa [values_length]
    have hhead : Constant.headType (d.values.map Constant.int) = .int width :=
      @headType_map _ Constant.int _ (fun _ => rfl) _ hlength
    rw [translateConstantOp, convertType, constInts_eq]
    split
    · rename_i h
      refine iff_of_true ⟨?_, ?_⟩ fun _ => h
      · rw [Constant.type, convertType, convertType, List.length_map, values_length, hhead]
      · rw [Constant.leaves, Attr.leaves, allLeaves_map fun _ => rfl]
    · rename_i h
      exact iff_of_false id fun hok => h (hok trivial)
  | denseInt hshape =>
    obtain ⟨e, count, rfl⟩ := hshape.eq_array
    exact iff_of_true trivial fun hvector => hvector.elim
  | denseFloatVector kind d hpos =>
    have hlength : 0 < d.values.length := by rwa [values_length]
    refine iff_of_true ?_ trivial
    rw [translateConstantOp, denseFloat_eq]
    refine ⟨?_, ?_⟩
    · rw [Constant.type, convertType, List.length_map, values_length, headType_map (floatConstant_type kind) hlength]
    · rw [Constant.leaves, Attr.leaves, allLeaves_map (floatConstant_leaves kind)]
  | denseFloat hshape =>
    obtain ⟨e, count, rfl⟩ := hshape.eq_array
    exact iff_of_true trivial trivial

/-! ## Globals -/

theorem allWidths_replicate (t : LlvmType) : ∀ n : Nat, (List.replicate n t.widths).flatten = LlvmType.allWidths (List.replicate n t)
  | 0 => rfl
  | n + 1 => by rw [List.replicate_succ, List.flatten_cons, allWidths_replicate t n, List.replicate_succ, LlvmType.allWidths]

theorem convertTypes_replicate (t : MlirType) : ∀ n : Nat, convertTypes (List.replicate n t) = List.replicate n (convertType t)
  | 0 => rfl
  | n + 1 => by rw [List.replicate_succ, convertTypes, convertTypes_replicate t n, List.replicate_succ]

theorem widths_shaped {elem : MlirType} {w : Nat} (helem : (convertType elem).widths = [w]) : ∀ {n : Nat} {t : MlirType},
    Shaped elem n t → (convertType t).widths = List.replicate n w := by
  intro n t h
  induction h with
  | array count => rw [convertType, LlvmType.widths, helem, List.flatten_replicate_singleton]
  | nested count _ ih => rw [convertType, LlvmType.widths, ih, List.flatten_replicate_replicate]

theorem widths_float (kind : FloatKind) : (convertType (.float kind)).widths = [kind.bits] := by
  cases kind <;> rfl

mutual

theorem HasType.widths : ∀ {t : MlirType} {a : Attr}, HasType t a → a.leaves.map Leaf.width = (convertType t).widths
  | _, _, .integer _ => rfl
  | _, _, .float kind _ => (widths_float kind).symm
  | _, _, .string bytes => by
    rw [Attr.leaves, convertType, convertType, LlvmType.widths, LlvmType.widths, List.flatten_replicate_singleton, List.map_map]
    exact List.map_const' ..
  | _, _, .struct hs => by rw [Attr.leaves, convertType, LlvmType.widths, HasTypes.widths hs]
  | _, _, .array hs => by
    rw [Attr.leaves, convertType, LlvmType.widths, HasTypes.widths hs, convertTypes_replicate, allWidths_replicate]
  | _, _, .denseIntVector d _ => by
    rw [Attr.leaves, convertType, convertType, LlvmType.widths, LlvmType.widths, List.flatten_replicate_singleton, List.map_map,
      ← values_length d]
    exact List.map_const' ..
  | _, _, .denseInt h => by
    rw [Attr.leaves, widths_shaped rfl h, List.map_map, ← values_length]
    exact List.map_const' ..
  | _, _, .denseFloatVector kind d _ => by
    rw [Attr.leaves, convertType, LlvmType.widths, widths_float, List.flatten_replicate_singleton, List.map_map, ← values_length d]
    exact List.map_const' ..
  | _, _, .denseFloat h => by
    rw [Attr.leaves, widths_shaped (widths_float _) h, List.map_map, ← values_length]
    exact List.map_const' ..

theorem HasTypes.widths : ∀ {ts : List MlirType} {as : List Attr}, HasTypes ts as → (Attr.allLeaves as).map Leaf.width = LlvmType.allWidths (convertTypes ts)
  | _, _, .nil => rfl
  | _, _, .cons h hs => by rw [Attr.allLeaves, List.map_append, h.widths, hs.widths, convertTypes, LlvmType.allWidths]

end

theorem zeros_iff : ∀ leaves : List Leaf, (leaves.map Leaf.width).map (fun width => Leaf.mk width 0) = leaves ↔ ∀ leaf ∈ leaves, leaf.bits = 0
  | [] => by simp
  | ⟨width, bits⟩ :: leaves => by
    simp only [List.map_cons, List.cons.injEq, List.forall_mem_cons, zeros_iff leaves]
    refine and_congr_left fun _ => ⟨fun h => (leaf_inj h).symm, fun h => congrArg (Leaf.mk width) h.symm⟩

theorem null_exact_iff {type : MlirType} {attr : Attr} (ht : HasType type attr) :
    Exact type attr (.ok (.null (convertType type))) ↔ ∀ leaf ∈ attr.leaves, leaf.bits = 0 := by
  rw [exact_ok rfl, Constant.leaves, ← ht.widths]
  exact zeros_iff attr.leaves

theorem string_eq (bytes : List (BitVec 8)) :
    bytes.mapM (fun c => constInt (.int 8) (c.setWidth 64) false) = .ok (bytes.map Constant.int) := by
  rw [mapM_eq_ok, List.forall₂_map_right_iff]
  refine List.forall₂_same.mpr fun c _ => ?_
  rw [constInt, if_neg (by decide), BitVec.setWidth_setWidth_of_le _ (by decide), BitVec.setWidth_eq]

theorem initializer_exact_iff {type : MlirType} {attr : Attr} (ht : HasType type attr) :
    Exact type attr (globalInitializer (convertType type) attr) ↔ GlobalOk attr := by
  cases ht with
  | integer bits =>
    rw [globalInitializer, constIntAttr_eq, GlobalOk]
    split
    · rename_i h
      exact iff_of_true ⟨rfl, rfl⟩ h
    · rename_i h
      exact iff_of_false id h
  | string bytes =>
    rw [globalInitializer, string_eq]
    refine iff_of_true ⟨?_, ?_⟩ trivial
    · exact congrArg (LlvmType.array (.int 8)) (List.length_map _)
    · exact allLeaves_map (fun _ => rfl) bytes
  | float kind bits => exact null_exact_iff (.float kind bits)
  | struct hs => exact null_exact_iff (.struct hs)
  | array hs => exact null_exact_iff (.array hs)
  | denseIntVector d hpos => exact null_exact_iff (.denseIntVector d hpos)
  | denseInt h => exact null_exact_iff (.denseInt h)
  | denseFloatVector kind d hpos => exact null_exact_iff (.denseFloatVector kind d hpos)
  | denseFloat h => exact null_exact_iff (.denseFloat h)

/-- An error, or a global where a load reads the bits of the attribute: none is marked constant that the module may write, and a linkage that
the translator does not know becomes external. -/
def GlobalExact (op : GlobalOp) (attr : Attr) : Outcome Global → Prop
  | .ok gv =>
    (∃ init, gv.initializer = some init ∧ init.type = convertType op.type ∧ init.leaves = attr.leaves) ∧ gv.type = convertType op.type ∧
      gv.addrSpace = op.addrSpace ∧ gv.alignment = op.alignment ∧ (gv.constant → op.constant) ∧ (gv.linkage = op.linkage ∨ gv.linkage = .external)
  | .error .error => True
  | .error .abort => False

theorem translateGlobalOp_eq {op : GlobalOp} {attr : Attr} (h : op.value = some attr) :
    translateGlobalOp op = (globalInitializer (convertType op.type) attr).map fun init =>
      ⟨convertType op.type, op.addrSpace, op.linkage.set, op.alignment, false, some init⟩ := by
  simp only [translateGlobalOp, h, bind, Except.bind, Except.map]

theorem global_exact_iff {op : GlobalOp} {attr : Attr} (hvalue : op.value = some attr) (ht : HasType op.type attr) :
    GlobalExact op attr (translateGlobalOp op) ↔ GlobalOk attr := by
  rw [← initializer_exact_iff ht, translateGlobalOp_eq hvalue]
  cases globalInitializer (convertType op.type) attr with
  | error e => cases e <;> exact Iff.rfl
  | ok init =>
    have hlinkage : op.linkage.set = op.linkage ∨ op.linkage.set = .external := by cases op.linkage <;> decide
    constructor
    · rintro ⟨⟨init', heq, hexact⟩, -⟩
      cases heq
      exact hexact
    · intro hexact
      refine ⟨⟨init, rfl, hexact⟩, rfl, rfl, rfl, fun h => ?_, hlinkage⟩
      cases h

/-- Conversions that are right for the half that is one, and keep every other float apart from it. -/
def conversionsOfOne : FloatConversions where
  getValueAsDouble kind bits :=
    if kind = .half ∧ bits.toNat = 0x3c00 then 0x3ff0000000000000
    else (if kind = .double ∨ ¬ Signaling kind bits then bits else bits ||| quietBit kind).setWidth 64
  ofDouble kind bits := if kind = .half ∧ bits = 0x3ff0000000000000 then BitVec.ofNat _ 0x3c00 else bits.setWidth kind.bits

end NumbaCudaMlir.Llvm70
