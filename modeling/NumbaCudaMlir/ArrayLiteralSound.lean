import NumbaCudaMlir.ArrayIndexSound
import NumbaCudaMlir.ArrayLiteral
import NumbaCudaMlir.CapturedArraySound
import NumbaCudaMlir.Llvm70Sound

/-!
# Soundness of captured host arrays

The constants are found again by the identity of the array. The memref of one
has the elements of the array in C order: it is what the type promises unless
the array has no dimension or only the order of Fortran.
-/

namespace NumbaCudaMlir.ArrayLiteral

open ArrayIndex CInt

/-! ## Texts -/

theorem hexValue_digits : ∀ n < 16, hexValue (hexDigit n) = some n ∧ unescape (hexDigit n) = none := by
  decide

theorem parseString_escape (byte : BitVec 8) (cs : List Char) : parseString (escape byte ++ cs) = (parseString cs).map (byte :: ·) := by
  have hbyte : byte.toNat < 256 := byte.isLt
  obtain ⟨hhi, hletter⟩ := hexValue_digits (byte.toNat / 16) (by omega)
  obtain ⟨hlo, -⟩ := hexValue_digits (byte.toNat % 16) (by omega)
  have hsum : BitVec.ofNat 8 (16 * (byte.toNat / 16) + byte.toNat % 16) = byte := by
    rw [Nat.div_add_mod, BitVec.ofNat_toNat, BitVec.setWidth_eq]
  rw [escape, List.cons_append, List.cons_append, List.singleton_append]
  generalize hexDigit (byte.toNat / 16) = c at hhi hletter
  generalize hexDigit (byte.toNat % 16) = d at hlo
  rw [parseString.eq_def]
  simp [hletter, hhi, hlo, hsum]

/-- **The text keeps the bytes.** -/
theorem parseString_flatMap_escape : ∀ bytes : List (BitVec 8), parseString (bytes.flatMap escape) = some bytes
  | [] => rfl
  | byte :: bytes => by
    rw [List.flatMap_cons, parseString_escape, parseString_flatMap_escape bytes]
    rfl

theorem constantGlobal_eq {dtype : NpDType} {nbytes : Nat} {bytes : List (BitVec 8)} (h : bytes.length = nbytes) :
    constantGlobal dtype nbytes bytes =
      some ⟨.array (.integer 8) nbytes, 4, .internal, some (alignment dtype), true, some (.string bytes), false⟩ := by
  simp [constantGlobal, parseString_flatMap_escape, h]

/-! ## Bytes of a constant -/

theorem constantBytes_ints (elem : Llvm70.LlvmType) : ∀ bytes : List (BitVec 8),
    constantBytes (.array elem (bytes.map Llvm70.Constant.int)) = some bytes
  | [] => rfl
  | byte :: bytes => by
    have ih := constantBytes_ints elem bytes
    simp only [constantBytes] at ih ⊢
    rw [List.map_cons, List.mapM_cons, ih]
    simp

theorem moduleBytes_of_string {gpuModule : Dict String Llvm70.GlobalOp} {name : String} {op : Llvm70.GlobalOp} {bytes : List (BitVec 8)}
    (hget : gpuModule.get name = some op) (hvalue : op.value = some (.string bytes)) : moduleBytes gpuModule name = some bytes := by
  have htranslate := Llvm70.translateGlobalOp_eq hvalue
  have hinit : ∀ ty, Llvm70.globalInitializer ty (.string bytes) = .ok (.array (.int 8) (bytes.map Llvm70.Constant.int)) := by
    intro ty
    rw [Llvm70.globalInitializer, Llvm70.string_eq]
    rfl
  rw [hinit] at htranslate
  unfold moduleBytes
  rw [hget, Option.bind_eq_bind, Option.bind_some, htranslate]
  exact constantBytes_ints (.int 8) bytes

/-! ## Elements in C order -/

def ints (ns : List Nat) : List Int := ns.map fun n : Nat => (n : Int)

theorem prod_ints : ∀ ns : List Nat, (ints ns).prod = (ns.prod : Nat)
  | [] => rfl
  | n :: ns => by
    have ih := prod_ints ns
    simp only [ints] at ih ⊢
    rw [List.map_cons, List.prod_cons, ih, List.prod_cons, Int.natCast_mul]

theorem mem_box_iff : ∀ {ns : List Nat} {c : List Int}, c ∈ box ns ↔ Strided.InRange (ints ns) c
  | [], c => by
    rw [box, List.mem_singleton]
    constructor
    · rintro rfl
      exact .nil
    · intro h
      cases h
      rfl
  | n :: ns, c => by
    rw [box, List.mem_flatMap]
    constructor
    · rintro ⟨i, hi, hc⟩
      obtain ⟨j, hj, rfl⟩ := List.mem_map.mp hc
      have hlt := List.mem_range.mp hi
      exact .cons ⟨Int.natCast_nonneg i, Int.ofNat_lt.mpr hlt⟩ (mem_box_iff.mp hj)
    · intro h
      cases h with
      | @cons _ i _ j hi hj =>
        obtain ⟨k, rfl⟩ := Int.eq_ofNat_of_zero_le hi.1
        exact ⟨k, List.mem_range.mpr (Int.ofNat_lt.mp hi.2), List.mem_map.mpr ⟨j, mem_box_iff.mpr hj, rfl⟩⟩

theorem length_flatMap_const {α β : Type} {f : α → List β} {b : Nat} (hf : ∀ x, (f x).length = b) : ∀ xs : List α,
    (xs.flatMap f).length = xs.length * b
  | [] => by simp
  | x :: xs => by
    rw [List.flatMap_cons, List.length_append, hf x, length_flatMap_const hf xs, List.length_cons, Nat.succ_mul, Nat.add_comm]

theorem box_length : ∀ ns : List Nat, (box ns).length = ns.prod
  | [] => rfl
  | n :: ns => by
    rw [box, length_flatMap_const (b := ns.prod) fun i => by rw [List.length_map, box_length ns], List.length_range, List.prod_cons]

theorem drop_blocks {β : Type} {g : Nat → List β} {l : Nat} (hg : ∀ i, (g i).length = l) {i n : Nat} (hi : i < n) :
    ∃ rest, ((List.range n).flatMap g).drop (i * l) = g i ++ rest := by
  obtain ⟨k, rfl⟩ := Nat.exists_eq_add_of_lt hi
  have hlen : ((List.range i).flatMap g).length = i * l := by rw [length_flatMap_const hg, List.length_range]
  refine ⟨((List.range k).map fun j => i + (j + 1)).flatMap g, ?_⟩
  rw [Nat.add_assoc, List.range_add, List.flatMap_append, List.drop_left' hlen, List.range_succ_eq_map, List.map_cons, List.flatMap_cons,
    List.map_map]
  rfl

theorem dot_rowMajor_bounds : ∀ {ns : List Nat} {c : List Int}, c ∈ box ns →
    0 ≤ Strided.dot c (Strided.rowMajor (ints ns)) ∧ Strided.dot c (Strided.rowMajor (ints ns)) < (ns.prod : Nat)
  | [], c, h => by
    obtain rfl := List.mem_singleton.mp h
    decide
  | n :: ns, c, h => by
    cases mem_box_iff.mp h with
    | @cons _ i _ j hi hj =>
      obtain ⟨hlo, hhi⟩ := dot_rowMajor_bounds (mem_box_iff.mpr hj)
      have hpos : 0 ≤ ((ns.prod : Nat) : Int) := Int.natCast_nonneg _
      have hprod := prod_ints ns
      simp only [ints, List.map_cons, Strided.rowMajor, Strided.dot_cons, List.prod_cons] at hprod hlo hhi ⊢
      rw [hprod, Int.natCast_mul]
      constructor
      · have := mul_nonneg hi.1 hpos
        omega
      · have hlt : i + 1 ≤ (n : Int) := hi.2
        have := mul_le_mul_of_nonneg_right hlt hpos
        rw [Int.add_mul, Int.one_mul] at this
        omega

/-- **An element lies at its place in C order.** -/
theorem take_flatMap_box {β : Type} {b : Nat} : ∀ {ns : List Nat} {f : List Int → List β} {c : List Int}, (∀ c, (f c).length = b) →
    c ∈ box ns → (((box ns).flatMap f).drop (b * (Strided.dot c (Strided.rowMajor (ints ns))).toNat)).take b = f c
  | [], f, c, hf, h => by
    obtain rfl := List.mem_singleton.mp h
    simp only [box, Strided.dot, Int.toNat_zero, Nat.mul_zero, List.drop_zero, List.flatMap_cons, List.flatMap_nil, List.append_nil]
    exact List.take_of_length_le (by rw [hf])
  | n :: ns, f, c, hf, h => by
    cases mem_box_iff.mp h with
    | @cons _ i _ j hi hj =>
      have hjbox := mem_box_iff.mpr hj
      obtain ⟨k, rfl⟩ := Int.eq_ofNat_of_zero_le hi.1
      obtain ⟨hlo, hhi⟩ := dot_rowMajor_bounds hjbox
      have hblock : ∀ i : Nat, ((box ns).flatMap fun j => f ((i : Int) :: j)).length = ns.prod * b := by
        intro i
        rw [length_flatMap_const fun j => hf _, box_length]
      obtain ⟨rest, hrest⟩ := drop_blocks hblock (show k < n from Int.ofNat_lt.mp hi.2)
      have ih := take_flatMap_box (f := fun j => f ((k : Int) :: j)) (fun j => hf _) hjbox
      have hflat : (box (n :: ns)).flatMap f = (List.range n).flatMap fun i : Nat => (box ns).flatMap fun j => f ((i : Int) :: j) := by
        rw [box, List.flatMap_assoc]
        simp only [List.flatMap_map]
      have hplace : b * (Strided.dot ((k : Int) :: j) (Strided.rowMajor (ints (n :: ns)))).toNat =
          k * (ns.prod * b) + b * (Strided.dot j (Strided.rowMajor (ints ns))).toNat := by
        have hprod := prod_ints ns
        simp only [ints, List.map_cons, Strided.rowMajor, Strided.dot_cons] at hprod hlo ⊢
        rw [hprod, Int.toNat_add (by positivity) hlo, ← Int.natCast_mul, Int.toNat_natCast]
        ring
      rw [hflat, hplace, ← List.drop_drop, hrest]
      have hlong : b * (Strided.dot j (Strided.rowMajor (ints ns))).toNat + b ≤ ((box ns).flatMap fun j => f ((k : Int) :: j)).length := by
        have := Nat.mul_le_mul_left b (show (Strided.dot j (Strided.rowMajor (ints ns))).toNat + 1 ≤ ns.prod by omega)
        rw [hblock, Nat.mul_comm ns.prod]
        rwa [Nat.mul_add, Nat.mul_one] at this
      rw [List.drop_append_of_le_length (by omega), List.take_append_of_le_length (by rw [List.length_drop]; omega), ih]

/-! ## Orders -/

theorem inOrder_iff : ∀ {ns ss ts : List Int}, inOrder ns ss ts = true ↔ Strided.AgreeWide ns ss ts
  | [], _, _ => by simp [inOrder, Strided.AgreeWide]
  | _ :: _, [], _ => by simp [inOrder, Strided.AgreeWide]
  | _ :: _, _ :: _, [] => by simp [inOrder, Strided.AgreeWide]
  | n :: ns, s :: ss, t :: ts => by
    simp only [inOrder, Strided.AgreeWide, Bool.and_eq_true, Bool.or_eq_true, decide_eq_true_eq, @inOrder_iff ns]
    refine and_congr_left fun _ => ?_
    by_cases hn : n < 2
    · exact ⟨fun _ h2 => absurd hn (by omega), fun _ => .inl hn⟩
    · exact ⟨fun h _ => h.resolve_left hn, fun h => .inr (h (by omega))⟩

theorem agreeWide_refl : ∀ ns ss : List Int, Strided.AgreeWide ns ss ss
  | [], _ => trivial
  | _ :: _, [] => trivial
  | _ :: ns, _ :: ss => ⟨fun _ => rfl, agreeWide_refl ns ss⟩

theorem agreeWide_symm : ∀ {ns ss ts : List Int}, Strided.AgreeWide ns ss ts → Strided.AgreeWide ns ts ss
  | [], _, _, _ => trivial
  | _ :: _, [], [], _ => trivial
  | _ :: _, [], _ :: _, _ => trivial
  | _ :: _, _ :: _, [], _ => trivial
  | _ :: _, _ :: _, _ :: _, h => ⟨fun hn => (h.1 hn).symm, agreeWide_symm h.2⟩

theorem agreeWide_trans : ∀ {ns ss ts us : List Int}, ts.length = ns.length → Strided.AgreeWide ns ss ts → Strided.AgreeWide ns ts us →
    Strided.AgreeWide ns ss us
  | [], _, _, _, _, _, _ => trivial
  | _ :: _, [], _ :: _, _, _, _, _ => trivial
  | _ :: _, _ :: _, _ :: _, [], _, _, _ => trivial
  | _ :: _, _ :: _, _ :: _, _ :: _, hl, h, h' =>
    ⟨fun hn => (h.1 hn).trans (h'.1 hn), agreeWide_trans (by simpa using hl) h.2 h'.2⟩

theorem agreeWide_map (f : Int → Int) : ∀ {ns ss ts : List Int}, Strided.AgreeWide ns ss ts → Strided.AgreeWide ns (ss.map f) (ts.map f)
  | [], _, _, _ => trivial
  | _ :: _, [], _, _ => trivial
  | _ :: _, _ :: _, [], _ => trivial
  | _ :: _, _ :: _, _ :: _, h => ⟨fun hn => congrArg f (h.1 hn), agreeWide_map f h.2⟩

theorem map_mul_fdiv {w : Int} (hw : 0 < w) (ss : List Int) : (ss.map (w * ·)).map (·.fdiv w) = ss := by
  rw [List.map_map]
  conv_rhs => rw [← List.map_id ss]
  refine List.map_congr_left fun s _ => ?_
  exact Int.mul_fdiv_cancel_left s hw.ne'

theorem cOrder_length (ns : List Nat) : (cOrder ns).length = ns.length := by
  rw [cOrder, Strided.rowMajor_length, List.length_map]

theorem fOrder_length (ns : List Nat) : (fOrder ns).length = ns.length := by
  rw [fOrder, List.length_reverse, Strided.rowMajor_length, List.length_reverse, List.length_map]

theorem identityStrides_agree : ∀ {ns ss : List Int}, ss.length = ns.length → Strided.AgreeWide ns ss (Strided.rowMajor ns) →
    Strided.AgreeWide ns (identityStrides ss) (Strided.rowMajor ns)
  | [], _, _, _ => trivial
  | [_], [_], _, _ => ⟨fun _ => rfl, trivial⟩
  | _ :: n :: ns, _ :: s :: ss, hl, h => ⟨h.1, @identityStrides_agree (n :: ns) (s :: ss) (by simpa using hl) h.2⟩

section
variable {a : NdArray}

theorem contiguous_iff {order : List Nat → List Int} :
    a.contiguous order = true ↔ 0 ∈ a.shape ∨ Strided.AgreeWide (ints a.shape) a.strides ((order a.shape).map (a.dtype.itemsize * ·)) := by
  rw [NdArray.contiguous, Bool.or_eq_true, decide_eq_true_eq, inOrder_iff]
  rfl

def NdArray.elementStrides (a : NdArray) : List Int := (contiguousStrides a).map (·.fdiv a.dtype.itemsize)

theorem elementStrides_length : a.elementStrides.length = (contiguousShape a).length := by
  unfold NdArray.elementStrides contiguousStrides contiguousShape
  rw [List.length_map]
  split
  · rfl
  · split
    · exact a.rank
    · rw [List.length_map, cOrder_length]

/-- **The memref has C order.** -/
theorem elementStrides_agree (hpos : 0 < a.dtype.itemsize) :
    0 ∈ contiguousShape a ∨ Strided.AgreeWide (ints (contiguousShape a)) (identityStrides a.elementStrides) (cOrder (contiguousShape a)) := by
  have hitem : (0 : Int) < a.dtype.itemsize := by omega
  have hid : Strided.AgreeWide (ints (contiguousShape a)) a.elementStrides (cOrder (contiguousShape a)) →
      Strided.AgreeWide (ints (contiguousShape a)) (identityStrides a.elementStrides) (cOrder (contiguousShape a)) :=
    identityStrides_agree (by rw [elementStrides_length, ints, List.length_map])
  by_cases hs : a.shape = []
  · right
    rw [contiguousShape, if_pos hs, NdArray.elementStrides, contiguousStrides, if_pos hs]
    exact ⟨fun h => absurd h (by decide), trivial⟩
  · by_cases hc : a.contiguous cOrder = true
    · rcases contiguous_iff.mp hc with h0 | hag
      · left
        rwa [contiguousShape, if_neg hs]
      · right
        apply hid
        rw [contiguousShape, if_neg hs, NdArray.elementStrides, contiguousStrides, if_neg hs, if_pos hc]
        have := agreeWide_map (·.fdiv (a.dtype.itemsize : Int)) hag
        rwa [map_mul_fdiv hitem] at this
    · right
      apply hid
      rw [contiguousShape, if_neg hs, NdArray.elementStrides, contiguousStrides, if_neg hs, if_neg hc, map_mul_fdiv hitem]
      exact agreeWide_refl _ _

theorem fdiv_inInt64 {s w : Int} (hw : 0 < w) (hs : InInt64 s) : InInt64 (s.fdiv w) := by
  unfold InInt64 at hs ⊢
  rw [Int.fdiv_eq_ediv_of_nonneg _ hw.le]
  have hlow : -2 ^ 63 ≤ s / w := by
    rw [Int.le_ediv_iff_mul_le hw]
    nlinarith
  have hhigh : s / w < 2 ^ 63 := by
    rw [Int.ediv_lt_iff_lt_mul hw]
    nlinarith
  omega

theorem rowMajor_le : ∀ {ns : List Nat}, (∀ n ∈ ns, 0 < n) → ∀ t ∈ Strided.rowMajor (ints ns), 0 ≤ t ∧ t ≤ (ns.prod : Nat)
  | [], _, _, ht => by cases ht
  | n :: ns, hpos, t, ht => by
    have hn := hpos n (by simp)
    have hle : ns.prod ≤ n * ns.prod := Nat.le_mul_of_pos_left _ hn
    rw [List.prod_cons]
    have hprod := prod_ints ns
    simp only [ints, List.map_cons, Strided.rowMajor, List.mem_cons] at hprod ht
    rcases ht with rfl | ht
    · omega
    · have := rowMajor_le (fun m hm => hpos m (by simp [hm])) t ht
      omega

theorem elementStrides_inInt64 (hpos : 0 < a.dtype.itemsize) : ∀ s ∈ a.elementStrides, InInt64 s := by
  have hitem : (0 : Int) < a.dtype.itemsize := by omega
  unfold NdArray.elementStrides contiguousStrides
  split
  · intro s hs
    obtain rfl : s = (a.dtype.itemsize : Int).fdiv a.dtype.itemsize := by simpa using hs
    rw [Int.fdiv_self hitem.ne']
    decide
  · split
    · intro s hs
      obtain ⟨t, ht, rfl⟩ := List.mem_map.mp hs
      exact fdiv_inInt64 hitem (a.stride_mem t ht)
    · rename_i hs hc
      rw [map_mul_fdiv hitem]
      have hne : 0 ∉ a.shape := fun h0 => hc (contiguous_iff.mpr (.inl h0))
      intro t ht
      have hbound := rowMajor_le (fun n hn => Nat.pos_of_ne_zero fun h0 => hne (h0 ▸ hn)) t ht
      have hlt := a.nbytes_lt
      have hmul : a.shape.prod ≤ a.dtype.itemsize * a.shape.prod := Nat.le_mul_of_pos_left _ hpos
      unfold InInt64
      omega

theorem contiguous_tobytes : (box (contiguousShape a)).flatMap (contiguousElement a) = a.tobytes := by
  unfold contiguousShape contiguousElement NdArray.tobytes
  by_cases hs : a.shape = []
  · rw [if_pos hs, if_pos hs, hs]
    rfl
  · rw [if_neg hs, if_neg hs]

theorem contiguous_prod : (contiguousShape a).prod = a.shape.prod := by
  unfold contiguousShape
  by_cases hs : a.shape = []
  · rw [if_pos hs, hs]
    rfl
  · rw [if_neg hs]

theorem tobytes_length : a.tobytes.length = a.dtype.itemsize * a.shape.prod := by
  rw [NdArray.tobytes, length_flatMap_const a.sized, box_length, Nat.mul_comm]

end

/-! ## The lowering -/

theorem storageType_bytes {d : NpDType} {t : StorageType} (h : storageType d = some t) : t.bytes = d.itemsize ∧ 0 < d.itemsize := by
  unfold storageType at h
  split at h <;> cases h <;> exact ⟨rfl, by simp [NpDType.itemsize, ItemSize.bytes]⟩

def constantOp (a : NdArray) : Llvm70.GlobalOp :=
  ⟨.array (.integer 8) a.nbytes, 4, .internal, some (alignment a.dtype), true, some (.string a.tobytes), false⟩

/-- The name of the constant of an array, and the builder that has it. -/
def named (b : Builder) (id : Nat) (a : NdArray) : String × Builder :=
  match b.constantArrayGlobals.get id with
  | some name => (name, b)
  | none =>
    (constantName b.constantArrayId,
      ⟨b.constantArrayId + 1, b.constantArrayGlobals.set id (constantName b.constantArrayId),
        b.mlirGpuModule.set (constantName b.constantArrayId) (constantOp a)⟩)

theorem addConstant_eq (b : Builder) (id : Nat) (a : NdArray) : addConstant b id a = some (named b id a) := by
  unfold addConstant named
  cases b.constantArrayGlobals.get id with
  | some name => rfl
  | none =>
    simp only [contiguous_tobytes, contiguous_prod, constantGlobal_eq tobytes_length]
    rfl

def literalMemref (name : String) (t : StorageType) (a : NdArray) (typed : Bool) : ArrayMemref where
  global := name
  elementType := t
  dims := (contiguousShape a).map fun n => if typed then none else some n
  descriptor := ⟨0, 0, 0, ints (contiguousShape a), a.elementStrides⟩

theorem contiguousShape_lt {a : NdArray} : ∀ n ∈ contiguousShape a, n < 2 ^ 63 := by
  unfold contiguousShape
  split
  · decide
  · exact a.extent_lt

theorem lowerArrayLiteral_eq {b : Builder} {id : Nat} {a : NdArray} {typed : Bool} {t : StorageType} (ht : storageType a.dtype = some t) :
    lowerArrayLiteral b id a typed = some (literalMemref (named b id a).1 t a typed, (named b id a).2) := by
  obtain ⟨-, hpos⟩ := storageType_bytes ht
  have hshape : (ints (contiguousShape a)).mapM i64c = some (ints (contiguousShape a)) := by
    apply mapM_i64c_accepts
    intro x hx
    obtain ⟨n, hn, rfl⟩ := List.mem_map.mp hx
    have := contiguousShape_lt n hn
    unfold InInt64
    omega
  have hstrides : a.elementStrides.mapM i64c = some a.elementStrides := mapM_i64c_accepts (elementStrides_inInt64 hpos)
  have hbuild : buildMemrefDescriptor 0 ((contiguousShape a).map fun n : Nat => (n : Int))
      ((contiguousStrides a).map (·.fdiv a.dtype.itemsize)) = some ⟨0, 0, 0, ints (contiguousShape a), a.elementStrides⟩ := by
    unfold buildMemrefDescriptor
    rw [show (contiguousShape a).map (fun n : Nat => (n : Int)) = ints (contiguousShape a) from rfl,
      show (contiguousStrides a).map (·.fdiv (a.dtype.itemsize : Int)) = a.elementStrides from rfl, hshape, hstrides]
    rfl
  simp only [lowerArrayLiteral, ht, addConstant_eq, hbuild, Option.bind_eq_bind, Option.bind_some, hpos.ne', if_false]
  rfl

/-! ## The memref -/

section
variable {a : NdArray} {t : StorageType} {name : String} {typed : Bool}

theorem literalMemref_memref : ∃ m, (literalMemref name t a typed).memref = some m ∧ m.offset = 0 ∧ m.extents = contiguousShape a ∧
    m.strides = identityStrides a.elementStrides := by
  have hshape : (ints (contiguousShape a)).map Int.toNat = contiguousShape a := by
    rw [ints, List.map_map]
    conv_rhs => rw [← List.map_id (contiguousShape a)]
    exact List.map_congr_left fun n _ => Int.toNat_natCast n
  have hok : a.elementStrides.length = (ints (contiguousShape a)).length ∧ ∀ n ∈ ints (contiguousShape a), 0 ≤ n ∧ n < 2 ^ 63 := by
    refine ⟨by rw [elementStrides_length, ints, List.length_map], fun n hn => ?_⟩
    obtain ⟨k, hk, rfl⟩ := List.mem_map.mp hn
    have := contiguousShape_lt k hk
    omega
  unfold ArrayMemref.memref literalMemref
  exact ⟨_, dif_pos hok, rfl, hshape, rfl⟩

theorem lower_full {m : MemRef} {index : Index} (hl : index.args.length = m.extents.length) :
    lower m .getitem index = some (.element (normalizeIndices m 0 index.args)) := by
  cases index with
  | scalar x =>
    have hone : m.extents.length = 1 := hl.symm
    simp only [lower, lowerArrayGetitem, hone]
    rfl
  | tuple xs =>
    have hlen : xs.length = m.extents.length := hl
    simp only [lower, lowerArrayTupleGetitem, hlen, Nat.lt_irrefl, Nat.sub_self, if_false, if_true]
    rfl

theorem coordinates_mem_box : ∀ {ns : List Nat} {xs : List IndexArg}, xs.length = ns.length → ArrayIndex.InRange ns xs →
    coordinates ns xs ∈ box ns
  | [], [], _, _ => by simp [coordinates, box]
  | n :: ns, x :: xs, hl, h => by
    rw [mem_box_iff]
    refine .cons ?_ (mem_box_iff.mp (coordinates_mem_box (by simpa using hl) h.2))
    have := h.1
    show 0 ≤ coordinate n x.value ∧ coordinate n x.value < (n : Int)
    unfold coordinate
    split <;> omega

theorem normalizeNegativeIndex_neg {m : MemRef} {x : IndexArg} {dim : Nat} (h : ¬ KeepsValue x) : (normalizeNegativeIndex m x dim).toInt < 0 := by
  match x, h with
  | .var false width bits, h =>
    simp only [KeepsValue, not_or, Nat.not_le, Nat.not_lt] at h
    have hbits := bits.isLt
    have hpow : 2 ^ width ≤ 2 ^ 63 := Nat.pow_le_pow_right (by decide) (by omega)
    have hvalue : castValue (.var false width bits) = (bits.toNat : Int) - 2 ^ width := toInt_of_ge h.2
    have hcast : ((2 ^ width : Nat) : Int) = 2 ^ width := by push_cast; rfl
    rw [show normalizeNegativeIndex m (.var false width bits) dim = indexOf (.var false width bits) from rfl, indexOf_toInt, hvalue,
      wrap64_eq (by unfold InInt64; omega)]
    omega
  | .const _, h => exact absurd trivial h
  | .var true _ _, h => exact absurd trivial h

theorem normalizeIndices_not_mem (m : MemRef) : ∀ {xs : List IndexArg} {dim : Nat} {ns : List Nat}, (∃ x ∈ xs, ¬ KeepsValue x) →
    normalizeIndices m dim xs ∉ box ns
  | [], _, _, h => by simp at h
  | x :: xs, dim, ns, h => by
    intro hmem
    rw [mem_box_iff, normalizeIndices] at hmem
    cases ns with
    | nil => cases hmem
    | cons n ns =>
      cases hmem with
      | cons hi htail =>
        obtain ⟨y, hy, hbad⟩ := h
        rcases List.mem_cons.mp hy with rfl | hy
        · have hneg : (normalizeNegativeIndex m y dim).toInt < 0 := normalizeNegativeIndex_neg hbad
          omega
        · exact normalizeIndices_not_mem m ⟨y, hy, hbad⟩ (mem_box_iff.mpr htail)

theorem readElement_iff {gpuModule : Dict String Llvm70.GlobalOp} (ht : storageType a.dtype = some t) (hs : a.shape ≠ [])
    (hbytes : moduleBytes gpuModule name = some a.tobytes) {index : Index} (hl : index.args.length = a.ndim)
    (hr : ArrayIndex.InRange a.shape index.args) :
    readElement gpuModule (literalMemref name t a typed) index = some (a.element (coordinates a.shape index.args)) ↔
      ∀ x ∈ index.args, KeepsValue x := by
  obtain ⟨m, hm, hoffset, hextents, hstrides⟩ := @literalMemref_memref a t name typed
  obtain ⟨hitem, hpos⟩ := storageType_bytes ht
  rw [contiguousShape, if_neg hs] at hextents
  have hlower : lower m .getitem index = some (.element (normalizeIndices m 0 index.args)) := lower_full (by rw [hl, hextents]; rfl)
  have hread : readElement gpuModule (literalMemref name t a typed) index =
      if normalizeIndices m 0 index.args ∈ box a.shape then
        some ((a.tobytes.drop (a.dtype.itemsize * (m.address (normalizeIndices m 0 index.args)).toNat)).take a.dtype.itemsize)
      else none := by
    simp only [readElement, hm, hlower, Option.bind_eq_bind, Option.bind_some, hextents]
    rw [show (literalMemref name t a typed).global = name from rfl, hbytes,
      show (literalMemref name t a typed).elementType.bytes = a.dtype.itemsize from hitem]
    rfl
  have hkeep : normalizeIndices m 0 index.args = coordinates a.shape index.args ↔ ∀ x ∈ index.args, KeepsValue x :=
    normalizeIndices_iff m (by rw [List.drop_zero, hextents]) hr
  rw [hread]
  constructor
  · intro h
    by_contra hbad
    rw [not_forall₂] at hbad
    obtain ⟨x, hx, hx'⟩ := hbad
    rw [if_neg (normalizeIndices_not_mem m ⟨x, hx, hx'⟩)] at h
    cases h
  · intro h
    have hcoords := hkeep.mpr h
    have hbox := coordinates_mem_box hl hr
    rw [hcoords, if_pos hbox, Option.some.injEq]
    have hdot : m.address (coordinates a.shape index.args) = Strided.dot (coordinates a.shape index.args) (Strided.rowMajor (ints a.shape)) := by
      rw [Layout.address, hoffset, Int.zero_add, hstrides]
      have hag := elementStrides_agree (a := a) hpos
      rw [contiguousShape, if_neg hs] at hag
      refine Strided.dot_eq_of_agree (mem_box_iff.mp hbox) ?_ (hag.resolve_left fun h0 => ?_)
      · rw [identityStrides_length, elementStrides_length, contiguousShape, if_neg hs, Strided.rowMajor_length, ints, List.length_map]
      · rw [box_eq_nil_iff.mpr h0] at hbox
        cases hbox
    rw [hdot]
    exact take_flatMap_box a.sized hbox

end

/-! ## Loads of one compilation -/

/-- A load of a captured array with the index at which it is read, if it is. -/
structure Use where
  id : Nat
  value : NdArray
  typed : Bool
  index : Option Index

/-- The index has a value in range for each dimension of the array. -/
def Use.Fits (u : Use) : Prop := ∀ index, u.index = some index → index.args.length = u.value.ndim ∧ ArrayIndex.InRange u.value.shape index.args

def loads (uses : List Use) : List (Nat × NdArray × Bool) := uses.map fun u => (u.id, u.value, u.typed)

theorem constantName_inj {j k : Nat} (h : constantName j = constantName k) : j = k := by
  have := congrArg String.toList h
  simp only [constantName, String.toList_append] at this
  exact NpDType.toDigits_inj (by simpa using List.append_cancel_left this)

/-- The names that a builder gives are of arrays that it was asked for. -/
structure Holds (asked : Nat → NdArray → Prop) (b : Builder) : Prop where
  fresh : ∀ id name, b.constantArrayGlobals.get id = some name → ∃ k < b.constantArrayId, name = constantName k
  inj : ∀ id id' name, b.constantArrayGlobals.get id = some name → b.constantArrayGlobals.get id' = some name → id = id'
  bytes : ∀ id name, b.constantArrayGlobals.get id = some name →
    ∃ a, asked id a ∧ moduleBytes b.mlirGpuModule name = some a.tobytes

section
variable {asked : Nat → NdArray → Prop} {b : Builder}

theorem moduleBytes_congr {g g' : Dict String Llvm70.GlobalOp} {name : String} (h : g.get name = g'.get name) :
    moduleBytes g name = moduleBytes g' name := by
  unfold moduleBytes
  rw [h]

theorem named_get (b : Builder) (id : Nat) (a : NdArray) : (named b id a).2.constantArrayGlobals.get id = some (named b id a).1 := by
  unfold named
  split
  · assumption
  · exact Dict.get_set_self _ _ _

theorem named_keeps {id : Nat} {a : NdArray} {id' : Nat} {name : String} (h : b.constantArrayGlobals.get id' = some name) :
    (named b id a).2.constantArrayGlobals.get id' = some name := by
  unfold named
  split
  · exact h
  · rename_i hnone
    have hne : id' ≠ id := fun he => by rw [he, hnone] at h; cases h
    rw [Dict.get_set_ne _ _ hne]
    exact h

/-- **One load** keeps what the builder holds. -/
theorem Holds.named {id : Nat} {a : NdArray} (h : Holds asked b) (ha : asked id a) : Holds asked (named b id a).2 := by
  unfold ArrayLiteral.named
  split
  · exact h
  · rename_i hnone
    have hlookup : ∀ {id' name}, (b.constantArrayGlobals.set id (constantName b.constantArrayId)).get id' = some name →
        (id' = id ∧ name = constantName b.constantArrayId) ∨ (id' ≠ id ∧ b.constantArrayGlobals.get id' = some name) := by
      intro id' name hget
      by_cases he : id' = id
      · rw [he, Dict.get_set_self] at hget
        exact .inl ⟨he, (Option.some.inj hget).symm⟩
      · rw [Dict.get_set_ne _ _ he] at hget
        exact .inr ⟨he, hget⟩
    have hold : ∀ {id' name}, b.constantArrayGlobals.get id' = some name → name ≠ constantName b.constantArrayId := by
      intro id' name hget he
      obtain ⟨k, hk, hname⟩ := h.fresh id' name hget
      rw [constantName_inj (hname.symm.trans he)] at hk
      exact Nat.lt_irrefl _ hk
    refine ⟨?_, ?_, ?_⟩
    · intro id' name hget
      rcases hlookup hget with ⟨-, rfl⟩ | ⟨-, hget⟩
      · exact ⟨_, Nat.lt_succ_self _, rfl⟩
      · obtain ⟨k, hk, hname⟩ := h.fresh id' name hget
        exact ⟨k, Nat.lt_succ_of_lt hk, hname⟩
    · intro i j name hi hj
      rcases hlookup hi with ⟨hi, hname⟩ | ⟨-, hi'⟩
      · rcases hlookup hj with ⟨hj, -⟩ | ⟨-, hj'⟩
        · rw [hi, hj]
        · exact absurd hname (hold hj')
      · rcases hlookup hj with ⟨-, hname⟩ | ⟨-, hj'⟩
        · exact absurd hname (hold hi')
        · exact h.inj i j name hi' hj'
    · intro id' name hget
      rcases hlookup hget with ⟨rfl, rfl⟩ | ⟨-, hget⟩
      · exact ⟨a, ha, moduleBytes_of_string (Dict.get_set_self _ _ _) rfl⟩
      · obtain ⟨a', ha', hbytes⟩ := h.bytes id' name hget
        exact ⟨a', ha', (moduleBytes_congr (Dict.get_set_ne _ _ (hold hget))).trans hbytes⟩

/-- The memref that a load gives when its array is named as in the last builder. -/
def Literal (b' : Builder) (u : Use) (r : ArrayMemref) : Prop :=
  ∃ t, storageType u.value.dtype = some t ∧ b'.constantArrayGlobals.get u.id = some r.global ∧
    r = literalMemref r.global t u.value u.typed

/-- **All loads** of a compilation, by the first one of each array. -/
theorem lowerLoads_holds : ∀ {uses : List Use} {b b' : Builder} {rs : List ArrayMemref}, (∀ u ∈ uses, asked u.id u.value) → Holds asked b →
    lowerLoads b (loads uses) = some (rs, b') →
    Holds asked b' ∧ List.Forall₂ (Literal b') uses rs ∧
      ∀ id name, b.constantArrayGlobals.get id = some name → b'.constantArrayGlobals.get id = some name
  | [], b, b', rs, _, hb, h => by
    cases h
    exact ⟨hb, .nil, fun _ _ hget => hget⟩
  | u :: uses, b, b', rs, hall, hb, h => by
    have hstep := h
    simp only [loads, List.map_cons, lowerLoads, Option.bind_eq_bind, Option.bind_eq_some_iff, Prod.exists, Option.pure_def] at hstep
    obtain ⟨r, b₁, hone, rs', b₂, htail, he⟩ := hstep
    cases he
    cases ht : storageType u.value.dtype with
    | none =>
      rw [lowerArrayLiteral, ht] at hone
      cases hone
    | some t =>
      rw [lowerArrayLiteral_eq ht] at hone
      cases hone
      obtain ⟨hb', hrest, hkeep⟩ := lowerLoads_holds (fun v hv => hall v (by simp [hv])) (hb.named (hall u (by simp))) htail
      refine ⟨hb', .cons ⟨t, ht, hkeep _ _ (named_get b u.id u.value), rfl⟩ hrest, fun id name hget => ?_⟩
      exact hkeep id name (named_keeps hget)

theorem lowerLoads_total : ∀ (uses : List Use) (b : Builder), (∀ u ∈ uses, (storageType u.value.dtype).isSome) →
    ∃ rs b', lowerLoads b (loads uses) = some (rs, b')
  | [], b, _ => ⟨[], b, rfl⟩
  | u :: uses, b, h => by
    obtain ⟨t, ht⟩ := Option.isSome_iff_exists.mp (h u (by simp))
    obtain ⟨rs, b', htail⟩ := lowerLoads_total uses (named b u.id u.value).2 fun v hv => h v (by simp [hv])
    refine ⟨literalMemref (named b u.id u.value).1 t u.value u.typed :: rs, b', ?_⟩
    simp only [loads, List.map_cons, lowerLoads, lowerArrayLiteral_eq ht, Option.bind_eq_bind, Option.bind_some]
    simp only [loads] at htail
    rw [htail]
    rfl

end

/-! ## Faithful constants -/

def NdArray.Same (a a' : NdArray) : Prop :=
  a.dtype = a'.dtype ∧ a.shape = a'.shape ∧ a.strides = a'.strides ∧ a.tobytes = a'.tobytes

/-- The order of elements in memory that a layout promises. -/
def LayoutKind.Promises (shape : List Nat) (strides : List Int) : LayoutKind → Prop
  | c => 0 ∈ shape ∨ Strided.AgreeWide (ints shape) strides (cOrder shape)
  | f => 0 ∈ shape ∨ Strided.AgreeWide (ints shape) strides (fOrder shape)
  | a => True

/-- The memref has the rank, the extents and the order of the array's type. -/
structure Promised (a : NdArray) (r : ArrayMemref) : Prop where
  rank : r.dims.length = a.ndim
  extents : r.descriptor.shape = ints a.shape
  order : (mapLayout a).Promises a.shape (identityStrides r.descriptor.strides)

structure Meets (gpuModule : Dict String Llvm70.GlobalOp) (u : Use) (r : ArrayMemref) : Prop where
  promised : Promised u.value r
  bytes : moduleBytes gpuModule r.global = some u.value.tobytes
  element : ∀ index, u.index = some index →
    readElement gpuModule r index = some (u.value.element (coordinates u.value.shape index.args))

/-- Every load is lowered to a memref of its array, in the translated module,
and loads of two arrays never share a constant. -/
def Faithful (b : Builder) (uses : List Use) : Prop :=
  ∃ rs b', lowerLoads b (loads uses) = some (rs, b') ∧
    ∀ x ∈ uses.zip rs, Meets b'.mlirGpuModule x.1 x.2 ∧ ∀ y ∈ uses.zip rs, x.2.global = y.2.global → x.1.value.Same y.1.value

/-- The loads with one identity are of one array that does not change. -/
def Honest (uses : List Use) : Prop := ∀ u ∈ uses, ∀ v ∈ uses, u.id = v.id → u.value.Same v.value

structure Use.Regular (u : Use) : Prop where
  dtype : (storageType u.value.dtype).isSome
  dimension : u.value.shape ≠ []
  order : mapLayout u.value ≠ .f
  index : ∀ index, u.index = some index → ∀ x ∈ index.args, KeepsValue x

theorem promised_iff {a : NdArray} {t : StorageType} (ht : storageType a.dtype = some t) (name : String) (typed : Bool) :
    Promised a (literalMemref name t a typed) ↔ a.shape ≠ [] ∧ mapLayout a ≠ .f := by
  obtain ⟨-, hpos⟩ := storageType_bytes ht
  have hag := elementStrides_agree (a := a) hpos
  constructor
  · intro h
    have hs : a.shape ≠ [] := by
      intro hs
      have := h.rank
      simp [literalMemref, contiguousShape, NdArray.ndim, hs] at this
    refine ⟨hs, fun hf => ?_⟩
    rw [contiguousShape, if_neg hs] at hag
    have hnc : ¬ a.contiguous cOrder = true := by
      intro hc
      rw [mapLayout, if_pos hc] at hf
      cases hf
    have hfc : a.contiguous fOrder = true := by
      by_contra hc
      rw [mapLayout, if_neg hnc, if_neg hc] at hf
      cases hf
    have hne : 0 ∉ a.shape := fun h0 => hnc (contiguous_iff.mpr (.inl h0))
    have hforder := h.order
    rw [hf] at hforder
    have hlength : (identityStrides a.elementStrides).length = (ints a.shape).length := by
      rw [identityStrides_length, elementStrides_length, contiguousShape, if_neg hs, ints, List.length_map]
    -- an array in both orders is contiguous in C order
    have hboth : Strided.AgreeWide (ints a.shape) (fOrder a.shape) (cOrder a.shape) :=
      agreeWide_trans hlength (agreeWide_symm (hforder.resolve_left hne)) (hag.resolve_left hne)
    apply hnc
    refine contiguous_iff.mpr (.inr ?_)
    refine agreeWide_trans ?_ ((contiguous_iff.mp hfc).resolve_left hne) (agreeWide_map _ hboth)
    rw [List.length_map, fOrder_length, ints, List.length_map]
  · rintro ⟨hs, hf⟩
    rw [contiguousShape, if_neg hs] at hag
    refine ⟨by rw [literalMemref, List.length_map, contiguousShape, if_neg hs]; rfl, by rw [literalMemref, contiguousShape, if_neg hs], ?_⟩
    cases hk : mapLayout a with
    | c => exact hag
    | f => exact absurd hk hf
    | a => trivial

theorem meets_iff {gpuModule : Dict String Llvm70.GlobalOp} {u : Use} {t : StorageType} {name : String} (hu : u.Fits)
    (ht : storageType u.value.dtype = some t) (hbytes : moduleBytes gpuModule name = some u.value.tobytes) :
    Meets gpuModule u (literalMemref name t u.value u.typed) ↔ u.Regular := by
  constructor
  · intro h
    obtain ⟨hs, hf⟩ := (promised_iff ht name u.typed).mp h.promised
    refine ⟨Option.isSome_iff_exists.mpr ⟨t, ht⟩, hs, hf, fun index hi => ?_⟩
    obtain ⟨hl, hr⟩ := hu index hi
    exact (readElement_iff ht hs hbytes hl hr).mp (h.element index hi)
  · intro h
    refine ⟨(promised_iff ht name u.typed).mpr ⟨h.dimension, h.order⟩, hbytes, fun index hi => ?_⟩
    obtain ⟨hl, hr⟩ := hu index hi
    exact (readElement_iff ht h.dimension hbytes hl hr).mpr (h.index index hi)

theorem exists_zip {α β : Type} {R : α → β → Prop} : ∀ {xs : List α} {ys : List β}, List.Forall₂ R xs ys → ∀ x ∈ xs, ∃ y, (x, y) ∈ xs.zip ys
  | _, _, .nil, x, hx => by cases hx
  | _, _, .cons _ hs, x, hx => by
    rcases List.mem_cons.mp hx with rfl | hx
    · exact ⟨_, List.mem_cons_self⟩
    · obtain ⟨y, hy⟩ := exists_zip hs x hx
      exact ⟨y, List.mem_cons_of_mem _ hy⟩

/-- **Captured arrays** are faithful constants exactly where an identity stands
for one array, and each array is of a dtype that is lowered, has a dimension
and not only the order of Fortran, and is read at indices that keep their value. -/
theorem captured_arrays_faithful_iff (b : Builder) (hb : b.constantArrayGlobals = Dict.empty) (uses : List Use) (h : ∀ u ∈ uses, u.Fits) :
    Faithful b uses ↔ Honest uses ∧ ∀ u ∈ uses, u.Regular := by
  let asked (id : Nat) (a : NdArray) : Prop := ∃ u ∈ uses, u.id = id ∧ u.value = a
  have hstart : Holds asked b := by
    refine ⟨?_, ?_, ?_⟩ <;> simp [hb]
  have hasked : ∀ u ∈ uses, asked u.id u.value := fun u hu => ⟨u, hu, rfl, rfl⟩
  constructor
  · rintro ⟨rs, b', hrun, hall⟩
    obtain ⟨hholds, hlit, -⟩ := lowerLoads_holds hasked hstart hrun
    have hzip : ∀ {u r}, (u, r) ∈ uses.zip rs → Literal b' u r := (List.forall₂_iff_zip.mp hlit).2
    refine ⟨fun u hu v hv hid => ?_, fun u hu => ?_⟩
    · obtain ⟨r, hr⟩ := exists_zip hlit u hu
      obtain ⟨r', hr'⟩ := exists_zip hlit v hv
      obtain ⟨-, -, hget, -⟩ := hzip hr
      obtain ⟨-, -, hget', -⟩ := hzip hr'
      rw [hid, hget'] at hget
      exact (hall _ hr).2 _ hr' (Option.some.inj hget).symm
    · obtain ⟨r, hr⟩ := exists_zip hlit u hu
      obtain ⟨t, ht, -, hshape⟩ := hzip hr
      have hmeets := (hall _ hr).1
      rw [hshape] at hmeets
      exact (meets_iff (h u hu) ht hmeets.bytes).mp hmeets
  · rintro ⟨hhonest, hregular⟩
    obtain ⟨rs, b', hrun⟩ := lowerLoads_total uses b fun u hu => (hregular u hu).dtype
    obtain ⟨hholds, hlit, -⟩ := lowerLoads_holds hasked hstart hrun
    have hzip : ∀ {u r}, (u, r) ∈ uses.zip rs → Literal b' u r := (List.forall₂_iff_zip.mp hlit).2
    refine ⟨rs, b', hrun, fun x hx => ⟨?_, fun y hy he => ?_⟩⟩
    · have hu : x.1 ∈ uses := (List.of_mem_zip hx).1
      obtain ⟨t, ht, hget, hshape⟩ := hzip hx
      obtain ⟨a, ⟨v, hv, hid, rfl⟩, hbytes⟩ := hholds.bytes _ _ hget
      have hsame := (hhonest v hv x.1 hu hid).2.2.2
      rw [hshape]
      exact (meets_iff (h x.1 hu) ht (hsame ▸ hbytes)).mpr (hregular x.1 hu)
    · obtain ⟨-, -, hgetx, -⟩ := hzip hx
      obtain ⟨-, -, hgety, -⟩ := hzip hy
      rw [he] at hgetx
      exact hhonest _ (List.of_mem_zip hx).1 _ (List.of_mem_zip hy).1 (hholds.inj _ _ _ hgetx hgety)

def emptyBuilder : Builder := ⟨0, Dict.empty, Dict.empty⟩

def reversedView : NdArray where
  dtype := .numeric .int .s2
  shape := [3]
  strides := [-2]
  element c := [BitVec.ofInt 8 (2 - c.headD 0), 0]
  rank := rfl
  sized _ := rfl
  extent_lt := by decide
  stride_mem := by decide
  nbytes_lt := by decide

theorem reversed_view_faithful : Faithful emptyBuilder [⟨0, reversedView, true, some (.scalar (.const (-1)))⟩] := by
  refine (captured_arrays_faithful_iff emptyBuilder rfl [⟨0, reversedView, true, some (.scalar (.const (-1)))⟩] ?_).mpr ⟨?_, ?_⟩
  · intro u hu
    obtain rfl := List.mem_singleton.mp hu
    intro index hi
    cases hi
    exact ⟨rfl, ⟨by decide, by decide⟩, trivial⟩
  · intro u hu v hv _
    rw [List.mem_singleton.mp hu, List.mem_singleton.mp hv]
    exact ⟨rfl, rfl, rfl, rfl⟩
  · intro u hu
    obtain rfl := List.mem_singleton.mp hu
    refine ⟨rfl, by decide, by decide, fun index hi => ?_⟩
    cases hi
    intro x hx
    obtain rfl := List.mem_singleton.mp hx
    trivial

theorem scalarArray_rank : ([] : List Int).length = ([] : List Nat).length := rfl

theorem scalarArray_extent_lt : ∀ n ∈ ([] : List Nat), n < 2 ^ 63 := by simp

def scalarArray : NdArray where
  dtype := .numeric .int .s2
  shape := []
  strides := []
  element _ := [7, 0]
  rank := scalarArray_rank
  sized _ := rfl
  extent_lt := scalarArray_extent_lt
  stride_mem := by decide
  nbytes_lt := by decide

/-- An array without dimensions gets a memref with one. -/
theorem scalar_array_not_faithful : ¬ Faithful emptyBuilder [⟨0, scalarArray, true, some (.tuple [])⟩] := by
  rintro ⟨rs, b', hrun, hall⟩
  rw [loads, List.map_cons, lowerLoads, lowerArrayLiteral_eq (t := .integer 16) rfl] at hrun
  cases hrun
  exact absurd (hall _ List.mem_cons_self).1.promised.rank (by decide)

end NumbaCudaMlir.ArrayLiteral
