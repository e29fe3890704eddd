import NumbaCudaMlir.StringEq

/-!
# Where string equality is right

The loop compares as many bytes as the left string has code points. That is the
whole of two strings of one byte a code point; otherwise strings that differ
behind those bytes are taken for equal.
-/

namespace NumbaCudaMlir.StringEq

open ByteMemory IndexLoop

variable {m : Memory} {globals : BitVec 64 × BitVec 64} {lhs rhs : Operand} {s t : PyString} {u v : UnicodeStruct}

/-! ## The loop -/

def differs (m : Memory) (u v : UnicodeStruct) (i : Nat) : Bool := m (u.data + BitVec.ofNat 64 i) != m (v.data + BitVec.ofNat 64 i)

theorem foldl_compareByte (m : Memory) (u v : UnicodeStruct) (n : Nat) :
    (List.range n).foldl (fun st i => compareByte m u v (BitVec.ofNat 64 i) st) (0, []) =
      (BitVec.ofNat 64 ((List.range n).countP (differs m u v)),
        (List.range n).map fun i => (u.data + BitVec.ofNat 64 i, v.data + BitVec.ofNat 64 i)) := by
  induction n with
  | zero => rfl
  | succ n ih =>
    rw [List.range_succ, List.foldl_append, ih, List.countP_append, List.map_append]
    simp only [List.foldl_cons, List.foldl_nil, compareByte, List.map_cons, List.map_nil, Prod.mk.injEq, and_true]
    rw [BitVec.ofNat_add]
    congr 1
    have hcount : List.countP (differs m u v) [n] = if differs m u v n then 1 else 0 := by
      rw [List.countP_cons, List.countP_nil, Nat.zero_add]
    rw [hcount, ← differs]
    cases differs m u v n <;> rfl

theorem countP_lt (m : Memory) (u v : UnicodeStruct) {n : Nat} (hn : n < 2 ^ 63) :
    (List.range n).countP (differs m u v) < 2 ^ 64 := by
  have := List.countP_le_length (p := differs m u v) (l := List.range n)
  rw [List.length_range] at this
  omega

theorem compare_eq {n k : Nat} (hn : n < 2 ^ 63) (hk : k < 2 ^ 63) (hu : u.length = BitVec.ofNat 64 n) (hv : v.length = BitVec.ofNat 64 k) :
    compare m u v = some (decide (n = k ∧ ∀ i < n, m (u.data + BitVec.ofNat 64 i) = m (v.data + BitVec.ofNat 64 i)),
      (List.range n).map fun i => (u.data + BitVec.ofNat 64 i, v.data + BitVec.ofNat 64 i)) := by
  have hlen : (BitVec.ofNat 64 n = BitVec.ofNat 64 k) ↔ n = k := by
    rw [← BitVec.toNat_inj, BitVec.toNat_ofNat, BitVec.toNat_ofNat, Nat.mod_eq_of_lt (by omega), Nat.mod_eq_of_lt (by omega)]
  have hzero : (BitVec.ofNat 64 ((List.range n).countP (differs m u v)) = 0) ↔
      ∀ i < n, m (u.data + BitVec.ofNat 64 i) = m (v.data + BitVec.ofNat 64 i) := by
    rw [← BitVec.toNat_inj, BitVec.toNat_ofNat, Nat.mod_eq_of_lt (countP_lt m u v hn)]
    simp [List.countP_eq_zero, differs]
  rw [compare, hu, hv, forLoop_full hn (fun iv st => compareByte m u v iv st), foldl_compareByte]
  simp only [Option.bind_eq_bind, Option.bind_some, Option.some.injEq, Prod.mk.injEq, and_true]
  rw [Bool.eq_iff_iff]
  simp only [Bool.and_eq_true, beq_iff_eq, decide_eq_true_eq, hlen, hzero]

/-! ## The operands -/

theorem stored_of_denotes {data : BitVec 64} {op : Operand} (h : op.Denotes m data s) : Stored m (op.materialize data) s := by
  cases op with
  | value u => exact h
  | literal t compact =>
    obtain ⟨rfl, hbytes⟩ := h
    refine ⟨rfl, fun i hi => hbytes i _ ?_⟩
    rw [materializeStringConstant, List.getElem?_map, List.getElem?_range hi]
    rfl

theorem width_pos (k : Kind) : 0 < k.width := by cases k <;> decide

theorem length_lt (s : PyString) : s.points.length < 2 ^ 63 := by
  have h := s.sized
  have := Nat.le_mul_of_pos_right (s.points.length + 1) (width_pos s.kind)
  omega

theorem length_lt_nbytes (s : PyString) : s.points.length < s.nbytes := by
  have := Nat.le_mul_of_pos_right (s.points.length + 1) (width_pos s.kind)
  rw [PyString.nbytes]
  omega

theorem unicodeEqLower_literals (s t : PyString) (hs : s.Compact) (ht : t.Compact) :
    unicodeEqLower m globals (.literal s hs) (.literal t ht) = some (foldEq s t, []) := rfl

theorem unicodeEqLower_stored (hl : lhs.Denotes m globals.1 s) (hr : rhs.Denotes m globals.2 t)
    (h : ¬ (lhs.isLiteral = true ∧ rhs.isLiteral = true)) :
    unicodeEqLower m globals lhs rhs =
      some (decide (s.points.length = t.points.length ∧ ∀ i < s.points.length,
          m ((lhs.materialize globals.1).data + BitVec.ofNat 64 i) = m ((rhs.materialize globals.2).data + BitVec.ofNat 64 i)),
        (List.range s.points.length).map fun i =>
          ((lhs.materialize globals.1).data + BitVec.ofNat 64 i, (rhs.materialize globals.2).data + BitVec.ofNat 64 i)) := by
  have hcompare : unicodeEqLower m globals lhs rhs = compare m (lhs.materialize globals.1) (rhs.materialize globals.2) := by
    unfold unicodeEqLower
    split
    · exact absurd ⟨rfl, rfl⟩ h
    · rfl
  rw [hcompare, compare_eq (length_lt s) (length_lt t) (stored_of_denotes hl).length (stored_of_denotes hr).length]

theorem lowerNe_eq {r : Bool} {reads : List (BitVec 64 × BitVec 64)} (h : unicodeEqLower m globals lhs rhs = some (r, reads)) :
    lowerNe m globals lhs rhs = some (!r) := by
  rw [lowerNe, h, Option.map_some, Bool.xor_true]

theorem foldEq_iff (s t : PyString) : foldEq s t = true ↔ s.points = t.points := beq_iff_eq

theorem compares_literals (hl : lhs.Denotes m globals.1 s) (hr : rhs.Denotes m globals.2 t)
    (h : lhs.isLiteral = true ∧ rhs.isLiteral = true) : Compares m globals lhs rhs s t := by
  cases lhs with
  | value _ => cases h.1
  | literal s' hs =>
    cases rhs with
    | value _ => cases h.2
    | literal t' ht =>
      obtain ⟨rfl, -⟩ := hl
      obtain ⟨rfl, -⟩ := hr
      have hfold := @unicodeEqLower_literals m globals s' t' hs ht
      exact ⟨_, _, hfold, foldEq_iff s' t', lowerNe_eq hfold, rfl, fun _ ha => absurd ha List.not_mem_nil⟩

/-! ## When it is right -/

/-- The bytes compared are read in the right buffer, and they are all there is to compare. -/
def Shape.Comparable (l r : Shape) : Prop :=
  l.length ≤ (r.length + 1) * r.kind.width ∧
    (l.length = r.length → l.length = 0 ∨ l.kind = .oneByte ∧ r.kind = .oneByte)

theorem sub_lt_nbytes {data : BitVec 64} {i n : Nat} (hi : i < n) (hn : n < 2 ^ 63) :
    (data + BitVec.ofNat 64 i - data).toNat = i :=
  add_ofNat_sub_toNat data (by omega)

theorem byteAt_oneByte (h : s.kind = .oneByte) {i : Nat} (hi : i < s.points.length) : (s.byteAt i).toNat = s.points[i] := by
  have hfits := s.fits _ (List.getElem_mem hi)
  rw [h] at hfits
  have hlt : s.points[i] < 256 := hfits
  simp only [PyString.byteAt, h, Kind.width, Nat.div_one, Nat.mod_one, pow_zero, BitVec.toNat_ofNat]
  have hget : s.points.getD i 0 = s.points[i] := by simp [List.getD, hi]
  omega

theorem bytes_eq_iff (hl : Stored m u s) (hr : Stored m v t) (hs : s.kind = .oneByte) (ht : t.kind = .oneByte)
    (hlen : s.points.length = t.points.length) :
    (∀ i < s.points.length, m (u.data + BitVec.ofNat 64 i) = m (v.data + BitVec.ofNat 64 i)) ↔ s.points = t.points := by
  have hbytes : ∀ i < s.points.length, m (u.data + BitVec.ofNat 64 i) = s.byteAt i ∧ m (v.data + BitVec.ofNat 64 i) = t.byteAt i :=
    fun i hi => ⟨hl.data i (hi.trans (length_lt_nbytes s)), hr.data i ((hlen ▸ hi).trans (length_lt_nbytes t))⟩
  constructor
  · intro h
    refine List.ext_getElem hlen fun i hi hi' => ?_
    have heq := h i hi
    rw [(hbytes i hi).1, (hbytes i hi).2] at heq
    rw [← byteAt_oneByte hs hi, ← byteAt_oneByte ht hi', heq]
  · intro h i hi
    rw [(hbytes i hi).1, (hbytes i hi).2, PyString.byteAt, PyString.byteAt, hs, ht, h]

theorem compares_of_comparable {l r : Shape} (hc : l.Comparable r) (hl : lhs.Denotes m globals.1 s) (hr : rhs.Denotes m globals.2 t)
    (hls : HasShape l lhs s) (hrs : HasShape r rhs t) (hlit : ¬ (lhs.isLiteral = true ∧ rhs.isLiteral = true)) :
    Compares m globals lhs rhs s t := by
  have heq := unicodeEqLower_stored hl hr hlit
  have hright : decide (s.points.length = t.points.length ∧ ∀ i < s.points.length,
      m ((lhs.materialize globals.1).data + BitVec.ofNat 64 i) = m ((rhs.materialize globals.2).data + BitVec.ofNat 64 i)) = true ↔
      s.points = t.points := by
    rw [decide_eq_true_iff]
    by_cases hlen : s.points.length = t.points.length
    · rw [and_iff_right hlen]
      rcases hc.2 (by rw [← hls.length, ← hrs.length, hlen]) with hzero | ⟨hlk, hrk⟩
      · have hs : s.points = [] := List.eq_nil_of_length_eq_zero (hls.length.trans hzero)
        have ht : t.points = [] := List.eq_nil_of_length_eq_zero (hlen ▸ hls.length.trans hzero)
        simp [hs, ht]
      · exact bytes_eq_iff (stored_of_denotes hl) (stored_of_denotes hr) (hls.kind.trans hlk) (hrs.kind.trans hrk) hlen
    · exact iff_of_false (fun h => hlen h.1) fun h => hlen (congrArg List.length h)
  refine ⟨_, _, heq, hright, lowerNe_eq heq, ?_, ?_⟩
  · rw [Bool.eq_iff_iff, hright, foldEq_iff]
  · intro a ha
    obtain ⟨i, hi, rfl⟩ := List.mem_map.mp ha
    have hi' := List.mem_range.mp hi
    have hbound : s.points.length ≤ t.nbytes := by
      rw [PyString.nbytes, hls.length, hrs.length, hrs.kind]
      exact hc.1
    refine ⟨?_, ?_⟩
    · rw [sub_lt_nbytes hi' (length_lt s)]
      exact hi'.trans (length_lt_nbytes s)
    · rw [sub_lt_nbytes hi' (length_lt s)]
      exact lt_of_lt_of_le hi' hbound

/-! ## Where it is wrong -/

/-- The strings of every kind start with these bytes: 1, 1, 1, 0 over and over. -/
def patternByte (i : Nat) : Nat := if i % 4 = 3 then 0 else 1

def patternPoint (k : Kind) (j : Nat) : Nat :=
  match k with
  | .oneByte => patternByte j
  | .twoByte => patternByte (2 * j) + 256 * patternByte (2 * j + 1)
  | .fourByte => 0x010101

theorem patternPoint_byte (k : Kind) (i : Nat) : patternPoint k (i / k.width) / 256 ^ (i % k.width) % 256 = patternByte i := by
  cases k with
  | oneByte =>
    simp only [patternPoint, Kind.width, Nat.div_one, Nat.mod_one, pow_zero, patternByte]
    split_ifs <;> rfl
  | twoByte =>
    simp only [patternPoint, Kind.width]
    rcases Nat.mod_two_eq_zero_or_one i with h | h
    · have hi : 2 * (i / 2) = i := by omega
      rw [h, hi]
      simp only [patternByte]
      split_ifs <;> simp
    · have hi : 2 * (i / 2) + 1 = i := by omega
      rw [h, hi]
      simp only [patternByte]
      split_ifs <;> simp
  | fourByte =>
    simp only [patternPoint, Kind.width, patternByte]
    have h : i % 4 = 0 ∨ i % 4 = 1 ∨ i % 4 = 2 ∨ i % 4 = 3 := by omega
    rcases h with h | h | h | h <;> simp [h]

/-- The pattern with its last code point moved by `last`. -/
def patternPoints (k : Kind) (n last : Nat) : List Nat := (List.range n).map fun j => patternPoint k j + if j + 1 = n then last else 0

theorem patternPoint_lt (k : Kind) (j : Nat) : patternPoint k j < 0x10200 ∧ (k = .twoByte → patternPoint k j < 0x102) ∧
    (k = .oneByte → patternPoint k j < 2) := by
  cases k with
  | fourByte => simp [patternPoint]
  | oneByte => simp only [patternPoint, patternByte]; split_ifs <;> simp
  | twoByte => simp only [patternPoint, patternByte]; split_ifs <;> simp

theorem mem_patternPoints {k : Kind} {n last c : Nat} (hlast : last = 0 ∨ last = 256 ∧ k ≠ .oneByte) (h : c ∈ patternPoints k n last) :
    c < 0x110000 ∧ c < 256 ^ k.width := by
  obtain ⟨j, -, rfl⟩ := List.mem_map.mp h
  obtain ⟨hfour, htwo, hone⟩ := patternPoint_lt k j
  have hmoved : (if j + 1 = n then last else 0) ≤ 256 := by split_ifs <;> omega
  refine ⟨by omega, ?_⟩
  cases k with
  | oneByte =>
    have hzero : (if j + 1 = n then last else 0) = 0 := by
      rcases hlast with rfl | ⟨-, hk⟩
      · exact ite_self 0
      · exact absurd rfl hk
    have := hone rfl
    simp only [Kind.width, pow_one]
    omega
  | twoByte =>
    have := htwo rfl
    simp only [Kind.width]
    omega
  | fourByte =>
    simp only [Kind.width]
    omega

def patternString (l : Shape) (last : Nat) (hlast : last = 0 ∨ last = 256 ∧ l.kind ≠ .oneByte) : PyString where
  kind := l.kind
  points := patternPoints l.kind l.length last
  unicode := fun _ hc => (mem_patternPoints hlast hc).1
  fits := fun _ hc => (mem_patternPoints hlast hc).2
  sized := by
    rw [patternPoints, List.length_map, List.length_range]
    exact l.sized

section
variable (l : Shape) {last : Nat} (hlast : last = 0 ∨ last = 256 ∧ l.kind ≠ .oneByte)

theorem patternString_length : (patternString l last hlast).points.length = l.length := by
  simp [patternString, patternPoints]

theorem patternString_getD {j : Nat} (hj : j < l.length) :
    (patternString l last hlast).points.getD j 0 = patternPoint l.kind j + if j + 1 = l.length then last else 0 := by
  simp [patternString, patternPoints, List.getD, hj]

theorem patternString_compact (hlit : l.literal = true) : (patternString l last hlast).Compact := by
  unfold PyString.Compact
  by_cases hzero : l.length = 0
  · have hkind : (patternString l last hlast).kind = .oneByte := l.compact hlit hzero
    rw [hkind]
    exact trivial
  · have hfirst : patternPoint l.kind 0 + (if 0 + 1 = l.length then last else 0) ∈ (patternString l last hlast).points :=
      List.mem_map.mpr ⟨0, List.mem_range.mpr (by omega), rfl⟩
    match hk : l.kind with
    | .oneByte => exact (show (patternString l last hlast).kind = .oneByte from hk) ▸ trivial
    | .twoByte =>
      rw [show (patternString l last hlast).kind = .twoByte from hk]
      exact ⟨_, hfirst, by rw [hk]; simp [patternPoint, patternByte]; omega⟩
    | .fourByte =>
      rw [show (patternString l last hlast).kind = .fourByte from hk]
      exact ⟨_, hfirst, by rw [hk]; simp [patternPoint]; omega⟩

theorem patternString_byteAt {i : Nat} (hi : i < l.length) : (patternString l last hlast).byteAt i = BitVec.ofNat 8 (patternByte i) := by
  have hpos := width_pos l.kind
  have hj : i / l.kind.width < l.length := lt_of_le_of_lt (Nat.div_le_self _ _) hi
  have hbyte := patternPoint_byte l.kind i
  rw [PyString.byteAt, show (patternString l last hlast).kind = l.kind from rfl, patternString_getD l hlast hj,
    ← BitVec.toNat_inj, BitVec.toNat_ofNat, BitVec.toNat_ofNat, ← hbyte]
  rcases hlast with rfl | ⟨rfl, hk⟩
  · simp
  · split_ifs with hend
    · -- The last code point starts behind the bytes compared, unless it is the only one.
      have htwo : 2 ≤ l.kind.width := by
        cases hw : l.kind with
        | oneByte => exact absurd hw hk
        | twoByte => exact Nat.le_refl 2
        | fourByte => decide
      have hdiv : i / l.kind.width * l.kind.width ≤ i := Nat.div_mul_le_self _ _
      have hmul : i / l.kind.width * 2 ≤ i / l.kind.width * l.kind.width := Nat.mul_le_mul_left _ htwo
      have hi0 : i = 0 := by omega
      subst hi0
      simp only [Nat.zero_div, Nat.zero_mod, pow_zero, Nat.div_one]
      omega
    · simp

end

theorem exists_operand (literal : Bool) (data : BitVec 64) (s : PyString) (hc : literal = true → s.Compact)
    (hm : ∀ i < s.nbytes, m (data + BitVec.ofNat 64 i) = s.byteAt i) :
    ∃ op : Operand, op.isLiteral = literal ∧ op.Denotes m data s := by
  cases literal with
  | false => exact ⟨.value (materializeStringConstant data s).2, rfl, rfl, hm⟩
  | true =>
    refine ⟨.literal s (hc rfl), rfl, rfl, fun i b hb => ?_⟩
    rw [materializeStringConstant, List.getElem?_map, Option.map_eq_some_iff] at hb
    obtain ⟨j, hj, rfl⟩ := hb
    obtain ⟨hlt, hji⟩ := List.getElem?_eq_some_iff.mp hj
    rw [List.getElem_range] at hji
    subst hji
    exact hm i (by simpa using hlt)

theorem exists_memory (s t : PyString) : ∃ m : Memory, (∀ i < s.nbytes, m (0 + BitVec.ofNat 64 i) = s.byteAt i) ∧
    ∀ i < t.nbytes, m (BitVec.ofNat 64 (2 ^ 63) + BitVec.ofNat 64 i) = t.byteAt i := by
  refine ⟨fun a => if a.toNat < 2 ^ 63 then s.byteAt a.toNat else t.byteAt (a.toNat - 2 ^ 63), fun i hi => ?_, fun i hi => ?_⟩
  · have hlt : i < 2 ^ 63 := lt_of_lt_of_le hi s.sized
    have ha : (0 + BitVec.ofNat 64 i).toNat = i := by simp; omega
    simp only [ha, if_pos hlt]
  · have hlt : i < 2 ^ 63 := lt_of_lt_of_le hi t.sized
    have ha : (BitVec.ofNat 64 (2 ^ 63) + BitVec.ofNat 64 i).toNat = 2 ^ 63 + i := by
      rw [← BitVec.ofNat_add, BitVec.toNat_ofNat]
      omega
    simp only [ha]
    rw [if_neg (by omega), Nat.add_sub_cancel_left]

theorem not_meets_of_strings {l r : Shape} (hlit : ¬ (l.literal = true ∧ r.literal = true)) {s t : PyString}
    (hs : s.kind = l.kind ∧ s.points.length = l.length ∧ (l.literal = true → s.Compact))
    (ht : t.kind = r.kind ∧ t.points.length = r.length ∧ (r.literal = true → t.Compact))
    (hbad : t.nbytes < s.points.length ∨
      s.points.length = t.points.length ∧ s.points ≠ t.points ∧ ∀ i < s.points.length, s.byteAt i = t.byteAt i) :
    ¬ Meets l r := by
  intro hmeets
  obtain ⟨m, hms, hmt⟩ := exists_memory s t
  obtain ⟨lhs, hllit, hl⟩ := exists_operand l.literal 0 s hs.2.2 hms
  obtain ⟨rhs, hrlit, hr⟩ := exists_operand r.literal (BitVec.ofNat 64 (2 ^ 63)) t ht.2.2 hmt
  obtain ⟨b, reads, heq, hright, -, -, hreads⟩ := hmeets m (0, BitVec.ofNat 64 (2 ^ 63)) lhs rhs s t hl hr
    ⟨hllit, hs.1, hs.2.1⟩ ⟨hrlit, ht.1, ht.2.1⟩
  have hl' : lhs.Denotes m (0, BitVec.ofNat 64 (2 ^ 63)).1 s := hl
  have hr' : rhs.Denotes m (0, BitVec.ofNat 64 (2 ^ 63)).2 t := hr
  have hstored := unicodeEqLower_stored hl' hr' (by rw [hllit, hrlit]; exact hlit)
  rw [hstored, Option.some.injEq, Prod.mk.injEq] at heq
  obtain ⟨rfl, rfl⟩ := heq
  rcases hbad with hlong | ⟨hlen, hne, hbytes⟩
  · have hread := (hreads _ (List.mem_map.mpr ⟨t.nbytes, List.mem_range.mpr hlong, rfl⟩)).2
    rw [sub_lt_nbytes hlong (length_lt s)] at hread
    exact absurd hread (Nat.lt_irrefl _)
  · refine hne (hright.mp (decide_eq_true ⟨hlen, fun i hi => ?_⟩))
    rw [(stored_of_denotes hl).data i (hi.trans (length_lt_nbytes s)),
      (stored_of_denotes hr).data i ((hlen ▸ hi).trans (length_lt_nbytes t))]
    exact hbytes i hi

theorem patternString_points_ne {l r : Shape} (hlen : l.length = r.length) (hpos : 0 < l.length)
    (hkinds : ¬ (l.kind = .oneByte ∧ r.kind = .oneByte)) :
    ∃ last, ∃ hlast : last = 0 ∨ last = 256 ∧ r.kind ≠ .oneByte,
      (patternString l 0 (.inl rfl)).points ≠ (patternString r last hlast).points := by
  by_cases hk : l.kind = r.kind
  · refine ⟨256, .inr ⟨rfl, fun h => hkinds ⟨hk.trans h, h⟩⟩, fun h => ?_⟩
    have hend := congrArg (fun ps => ps.getD (l.length - 1) 0) h
    rw [patternString_getD l _ (by omega), patternString_getD r _ (by omega), hk, if_pos (by omega), if_pos (by omega)] at hend
    omega
  · refine ⟨0, .inl rfl, fun h => ?_⟩
    have hfirst := congrArg (fun ps => ps.getD 0 0) h
    rw [patternString_getD l _ hpos, patternString_getD r _ (by omega), ite_self, ite_self] at hfirst
    revert hfirst hk
    cases l.kind <;> cases r.kind <;> simp [patternPoint, patternByte]

/-- One code point in two bytes, with the low byte 0x61. -/
def lowByte61 (high : Nat) (h : high < 256) : PyString where
  kind := .twoByte
  points := [0x61 + 256 * high]
  unicode := by simp; omega
  fits := by simp [Kind.width]; omega
  sized := by simp [Kind.width]

end NumbaCudaMlir.StringEq
